import FormatterPlan.TypeExpr.Token

/-! Written type references and their grammar:

    type    ::= primary suffix*
    primary ::= ident | ident '<' type (',' type)* '>' | '(' type (',' type)+ ')'
    suffix  ::= '[' ','* ']' | '?'

Suffixes apply from left to right, and an array of more than 255 dimensions counts as one of 255. -/

namespace FormatterPlan

/-- A type reference as it is written, before its names are resolved. -/
inductive TypeExpr where
  | named (name : String) (args : List TypeExpr)
  | array (element : TypeExpr) (rank : Nat)
  | tuple (elements : List TypeExpr)
  | nullable (inner : TypeExpr)

/-- Why a text is not a type reference. -/
inductive SyntaxFault where
  /-- From here on the text starts no token. -/
  | noToken (rest : String)
  /-- A mark is missing. -/
  | missing (mark : Char)
  /-- Parentheses hold a single type. -/
  | shortTuple
  /-- A type has to start here; `found` is the token in its place, `none` at the end. -/
  | noName (found : Option Token)
  /-- A token follows a complete type. -/
  | trailing (found : Token)

namespace SyntaxFault

def message : SyntaxFault → String
  | .noToken rest => "unexpected input at \x60" ++ rest ++ "\x60"
  | .missing mark => "expected \x60" ++ String.singleton mark ++ "\x60"
  | .shortTuple => "a tuple needs at least two elements"
  | .noName none => "expected a type name, found None"
  | .noName (some token) => "expected a type name, found Some(" ++ token.shown ++ ")"
  | .trailing token => "trailing " ++ token.shown

end SyntaxFault

namespace TypeExpr

/-- The most dimensions an array type keeps. -/
def maxRank : Nat := 255

/-- The number of leading commas, and the tokens after them. -/
def commas : List Token → Nat × List Token
  | .punct ',' :: rest => ((commas rest).1 + 1, (commas rest).2)
  | rest => (0, rest)

theorem commas_length_le (ts : List Token) : (commas ts).2.length ≤ ts.length := by
  fun_induction commas ts with
  | case1 rest ih => simp only [List.length_cons]; omega
  | case2 => exact Nat.le_refl _

/-- The suffixes at the start of the tokens, applied to `type`. -/
def suffixes (type : TypeExpr) : List Token → Except SyntaxFault (TypeExpr × List Token)
  | .punct '[' :: rest =>
    match h : commas rest with
    | (count, .punct ']' :: after) => suffixes (.array type (min maxRank (count + 1))) after
    | _ => .error (.missing ']')
  | .punct '?' :: rest => suffixes (.nullable type) rest
  | rest => .ok (type, rest)
termination_by ts => ts.length
decreasing_by
  · have bound := commas_length_le rest
    rw [h] at bound
    simp only [List.length_cons] at bound ⊢
    omega
  · simp

mutual

/-- The type at the start of the tokens and the tokens after it.  Every call passes a token or goes
from a list to its first member, so `depth` above twice the number of tokens does not run out. -/
def readType : (depth : Nat) → List Token → Except SyntaxFault (TypeExpr × List Token)
  | 0, ts => .error (.noName ts.head?)
  | depth + 1, .punct '(' :: rest => do
    let (elements, after) ← readList depth ')' rest
    if elements.length < 2 then .error .shortTuple
    else suffixes (.tuple elements) after
  | depth + 1, .ident name :: .punct '<' :: rest => do
    let (args, after) ← readList depth '>' rest
    suffixes (.named name args) after
  | _ + 1, .ident name :: rest => suffixes (.named name []) rest
  | _ + 1, ts => .error (.noName ts.head?)

/-- The types between commas up to the mark `close`, and the tokens after it. -/
def readList : (depth : Nat) → (close : Char) → List Token →
    Except SyntaxFault (List TypeExpr × List Token)
  | 0, _, ts => .error (.noName ts.head?)
  | depth + 1, close, ts => do
    match ← readType depth ts with
    | (first, .punct ',' :: rest) =>
      let (others, after) ← readList depth close rest
      .ok (first :: others, after)
    | (only, .punct mark :: rest) =>
      if mark = close then .ok ([only], rest) else .error (.missing close)
    | _ => .error (.missing close)

end

def parse (text : String) : Except SyntaxFault TypeExpr := do
  let tokens ← (Token.scan text.toList).mapError SyntaxFault.noToken
  match ← readType (2 * tokens.length + 2) tokens with
  | (type, []) => .ok type
  | (_, token :: _) => .error (.trailing token)

end TypeExpr

end FormatterPlan
