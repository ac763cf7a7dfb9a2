import LetPoly.Error

/-!
# Diagnostics

What a reader of an error is told: a headline, a line and a column of the source text, and perhaps a
note. The place of an error is taken as a number of characters when its line is looked for. A place
that reaches beyond the text is not shown, and neither is the note then.
-/

namespace LetPoly

/-- A line and a column, both counted from one. -/
structure Place where
  line : Nat
  column : Nat
  deriving DecidableEq, Repr

namespace Place

/-- Whether a line ends behind a character; a carriage return before a line feed does not end it. -/
def endsLine (c : Char) (next : Char) : Bool :=
  if c = '\r' then next != '\n'
  else c = '\n' || c = '\x0b' || c = '\x0c' || c = '\u0085' || c = '\u2028' || c = '\u2029'

/-- Where the lines after the first begin, in text whose first character has the number `i`. No line
begins at the end of the text. -/
def laterLines (i : Nat) : List Char → List Nat
  | c :: d :: cs =>
    if endsLine c d then (i + 1) :: laterLines (i + 1) (d :: cs) else laterLines (i + 1) (d :: cs)
  | _ => []

/-- The place of the `i`-th character of a text, counted from zero: its line is the last one that
begins there or before. -/
def ofIndex (source : List Char) (i : Nat) : Place :=
  let begun := (laterLines 0 source).filter (· ≤ i)
  ⟨begun.length + 1, i - begun.getLastD 0 + 1⟩

/-- The place of a span, if neither of its ends is beyond the text. -/
def ofSpan? (source : List Char) (span : Span) : Option Place :=
  let n := source.length
  if n < span.start ∨ (span.start < span.stop ∧ n < span.stop - 1) then none
  else some (ofIndex source span.start)

end Place

/-- What is said about an error in a source text. -/
structure Diagnostic where
  headline : String
  place : Option Place
  note : Option String
  deriving DecidableEq, Repr

/-- The first line of a diagnostic. -/
def Fault.headline : Fault → String
  | .lexical (.unexpectedCharacter c) => "Unexpected character: '" ++ String.singleton c ++ "'"
  | .lexical (.invalidNumber digits) => "Invalid integer literal: '" ++ digits ++ "'"
  | .grammatical (.unexpectedToken found expected) =>
    "Unexpected token: found '" ++ found ++ "', expected " ++ expected
  | .grammatical (.unexpectedEnd expected) => "Unexpected end of input, expected " ++ expected
  | .typing (.unboundVariable x) => "Unbound variable: '" ++ x ++ "'"
  | .typing (.infinite a t) => TypeError.message (.infinite a t)
  | .typing (.mismatch t u) =>
    let (left, names) := Naming.new.ty t
    "Type mismatch: cannot unify '" ++ left ++ "' with '" ++ (names.ty u).1 ++ "'"

/-- What else there is to say. -/
def Fault.note? : Fault → Option String
  | .lexical (.invalidNumber _) => some "Help: integers must fit in 64 bits"
  | .typing (.infinite ..) => some "Help: This would create an infinite type"
  | .typing (.mismatch ..) =>
    some "Note: the two types have different shapes and no variable can bridge them"
  | _ => none

namespace Diagnostic

/-- The diagnostic of an error in a source text. -/
def ofError (source : String) (e : Error) : Diagnostic :=
  match Place.ofSpan? source.toList e.span with
  | some place => ⟨e.val.headline, some place, e.val.note?⟩
  | none => ⟨e.val.headline, none, none⟩

/-- The place with the name of the file, as in `file:1:5`. -/
def location? (d : Diagnostic) (filename : String) : Option String :=
  d.place.map fun p => filename ++ ":" ++ toString p.line ++ ":" ++ toString p.column

end Diagnostic

end LetPoly
