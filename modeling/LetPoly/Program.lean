import LetPoly.Expr

/-!
# Programs

A program is a list of statements, each an expression or a definition for the statements after it.
-/

namespace LetPoly

/-- `let name = expr`, or just the expression. -/
structure Statement where
  name : Option String
  expr : Expr
  deriving DecidableEq, Repr

/-- The statements of a source text, with their places and that of the whole. -/
structure Program where
  statements : List (Located Statement)
  span : Span
  deriving DecidableEq, Repr

/-- The tokens of a statement, without the semicolon after it. -/
def Statement.spell (s : Statement) : List Token :=
  match s.name with
  | some x => .kwLet :: .ident x :: .equals :: s.expr.spell .top
  | none => s.expr.spell .top

/-- The text of statements: a line for each, ended by a semicolon. -/
def Statement.printAll (ss : List Statement) : String :=
  String.join (ss.map fun s => Token.line (s.spell ++ [.semicolon]) ++ "\n")

/-- The text of a program. -/
def Program.print (p : Program) : String := Statement.printAll (p.statements.map Located.val)

end LetPoly
