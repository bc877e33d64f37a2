/-! Patterns of paths.  Components stand between strokes: a question mark stands for one character,
a star for any text, brackets for one of some characters, and two stars as a whole component for any
number of directories. -/

namespace FormatterPlan

/-- A part of a path pattern. -/
inductive PathPiece where
  | char (c : Char)
  | anyChar
  | anyText
  /-- A character in one of the ranges, or in none of them. -/
  | range (isIn : Bool) (ranges : List (Char × Char))
  | anyDirectories
deriving DecidableEq

inductive PathFault where
  | manyStars
  | partialStars
  | badRange
deriving DecidableEq

def PathFault.message : PathFault → String
  | .manyStars => "wildcards are either regular \x60*\x60 or recursive \x60**\x60"
  | .partialStars => "recursive wildcards must form a single path component"
  | .badRange => "invalid range pattern"

/-- A fault and the number of characters before it. -/
structure PathFaultAt where
  fault : PathFault
  position : Nat
deriving DecidableEq

def PathFaultAt.message (f : PathFaultAt) : String :=
  "Pattern syntax error near position " ++ Nat.repr f.position ++ ": " ++ f.fault.message

namespace PathPiece

/-- The ranges between brackets.  A character alone is a range of one. -/
def rangesOf : List Char → List (Char × Char)
  | first :: '-' :: last :: rest => (first, last) :: rangesOf rest
  | c :: rest => (c, c) :: rangesOf rest
  | [] => []

/-- The text before the next closing bracket and the text after it. -/
def closed? : List Char → Option (List Char × List Char)
  | [] => none
  | c :: rest =>
    if c = ']' then some ([], rest)
    else (closed? rest).map fun (inner, after) => (c :: inner, after)

/-- The range after an opening bracket and the text after it.  The first character of a range is in
it even if it is a closing bracket; an exclamation mark before it excludes the range. -/
def range? : List Char → Option (PathPiece × List Char)
  | '!' :: c :: rest =>
    (closed? rest).map fun (inner, after) => (.range false (rangesOf (c :: inner)), after)
  | c :: rest =>
    (closed? rest).map fun (inner, after) => (.range true (rangesOf (c :: inner)), after)
  | [] => none

theorem closed?_length_lt {cs inner after : List Char} (h : closed? cs = some (inner, after)) :
    after.length < cs.length := by
  induction cs generalizing inner with
  | nil => simp [closed?] at h
  | cons c rest ih =>
    simp only [closed?] at h
    split at h
    · simp only [Option.some.injEq, Prod.mk.injEq] at h
      simp [h.2]
    · obtain ⟨⟨u, v⟩, hu, huv⟩ := Option.map_eq_some_iff.1 h
      simp only [Prod.mk.injEq] at huv
      have bound := ih (hu.trans (by rw [huv.2]))
      simp only [List.length_cons]
      omega

theorem range?_length_lt {cs after : List Char} {piece : PathPiece}
    (h : range? cs = some (piece, after)) : after.length < cs.length := by
  unfold range? at h
  split at h
  · obtain ⟨⟨u, v⟩, hu, huv⟩ := Option.map_eq_some_iff.1 h
    simp only [Prod.mk.injEq] at huv
    have bound := closed?_length_lt hu
    simp only [List.length_cons, ← huv.2]
    omega
  · obtain ⟨⟨u, v⟩, hu, huv⟩ := Option.map_eq_some_iff.1 h
    simp only [Prod.mk.injEq] at huv
    have bound := closed?_length_lt hu
    simp only [List.length_cons, ← huv.2]
    omega
  · simp at h

/-- The pieces of a text that stands `index` characters into a pattern; `isFirst` tells whether a
component begins here. -/
def scan (index : Nat) (isFirst : Bool) : List Char → Except PathFaultAt (List PathPiece)
  | [] => .ok []
  | '*' :: '*' :: '*' :: _ => .error ⟨.manyStars, index + 2⟩
  | '*' :: '*' :: rest =>
    if isFirst then
      match rest with
      | [] => .ok [.anyDirectories]
      | '/' :: rest => (scan (index + 3) true rest).map (.anyDirectories :: ·)
      | _ => .error ⟨.partialStars, index + 2⟩
    else .error ⟨.partialStars, index - 1⟩
  | '*' :: rest => (scan (index + 1) false rest).map (.anyText :: ·)
  | '?' :: rest => (scan (index + 1) false rest).map (.anyChar :: ·)
  | '[' :: rest =>
    match _found : range? rest with
    | some (piece, after) =>
      (scan (index + 1 + (rest.length - after.length)) false after).map (piece :: ·)
    | none => .error ⟨.badRange, index⟩
  | c :: rest => (scan (index + 1) (c == '/') rest).map (.char c :: ·)
termination_by cs => cs.length
decreasing_by
  all_goals simp only [List.length_cons]
  case _ => omega
  case _ => omega
  case _ => omega
  case _ =>
    have bound := range?_length_lt _found
    omega
  case _ => omega

/-- Whether a piece that stands for one character stands for `c`. -/
def accepts (c : Char) : PathPiece → Bool
  | .char d => c == d
  | .anyChar => true
  | .range isIn ranges => isIn == ranges.any fun (first, last) => first ≤ c && c ≤ last
  | .anyText | .anyDirectories => false

/-- A text without its first characters, for every number of them. -/
def rests : List Char → List (List Char)
  | [] => [[]]
  | c :: cs => (c :: cs) :: rests cs

/-- What can be left of `texts` behind what a piece stands for.  The texts are ends of one name with
the longest first, so from the longest of them a star leads to all that it leads to from the
others. -/
def restsAfter (texts : List (List Char)) : PathPiece → List (List Char)
  | .anyText => match texts with
    | [] => []
    | longest :: _ => rests longest
  | piece => texts.filterMap fun
    | [] => none
    | c :: cs => if piece.accepts c then some cs else none

/-- Whether pieces stand for a name as a whole. -/
def allMatch (pieces : List PathPiece) (name : List Char) : Bool :=
  (pieces.foldl restsAfter [name]).any (·.isEmpty)

/-- The text of pieces all of which are characters. -/
def literal? : List PathPiece → Option (List Char)
  | [] => some []
  | .char c :: rest => (literal? rest).map (c :: ·)
  | _ => none

end PathPiece

/-- A component of a path pattern. -/
inductive PathComponent where
  | name (name : String)
  | anyDirectories
  | pieces (pieces : List PathPiece)

namespace PathComponent

def ofPieces (pieces : List PathPiece) : PathComponent :=
  match PathPiece.literal? pieces with
  | some cs => .name (String.ofList cs)
  | none => if pieces = [.anyDirectories] then .anyDirectories else .pieces pieces

def accepts (name : String) : PathComponent → Bool
  | .name n => n == name
  | .pieces ps => PathPiece.allMatch ps name.toList
  | .anyDirectories => true

/-- Leaves out a component for any directories right after another one. -/
def collapse : List PathComponent → List PathComponent
  | .anyDirectories :: .anyDirectories :: rest => collapse (.anyDirectories :: rest)
  | component :: rest => component :: collapse rest
  | [] => []

end PathComponent

structure PathPattern where
  base : String
  components : List PathComponent
  onlyDirectories : Bool

namespace PathPattern

/-- The parts of a text between strokes, after the characters `part`, last first, of the part that
is being read.  A stroke at the end ends the last part. -/
def partsFrom (part : List Char) : List Char → List (List Char)
  | [] => if part.isEmpty then [] else [part.reverse]
  | '/' :: rest => part.reverse :: partsFrom [] rest
  | c :: rest => partsFrom (c :: part) rest

/-- The pattern that a text writes.  The text as a whole is looked at first, then each component. -/
def parse (text : String) : Except PathFaultAt PathPattern := do
  let cs := text.toList
  let _ ← PathPiece.scan 0 true cs
  let strokes := cs.takeWhile (· == '/')
  let components ← (partsFrom [] (cs.drop strokes.length)).mapM fun part =>
    return .ofPieces (← PathPiece.scan 0 true part)
  .ok {
    base := if strokes.isEmpty then "." else "/"
    components := PathComponent.collapse components
    onlyDirectories := cs.getLast? == some '/' }

end PathPattern

end FormatterPlan
