import LetPoly.Token

/-!
# Expressions

The lambda calculus with `let`, integers and truth values, and how its terms are written down.

An expression is written as tokens (`Expr.spell`), and tokens as text (`Token.line`). Brackets are
put only where leaving them out would read as another expression: around an application that is an
argument, and around an abstraction or a `let` that is a function or an argument. Abstractions in a
row share one lambda, `\x y -> x`.
-/

namespace LetPoly

inductive Literal where
  | int (value : Int64)
  | bool (value : Bool)
  deriving DecidableEq, Repr

inductive Expr where
  | var (name : String)
  | lit (value : Literal)
  | app (fn arg : Expr)
  | abs (param : String) (body : Expr)
  | letIn (name : String) (bound body : Expr)
  deriving DecidableEq, Repr

/-- The one token that a literal is written as. -/
def Literal.token : Literal → Token
  | .int n => .int n
  | .bool true => .kwTrue
  | .bool false => .kwFalse

/-- Where an expression stands. -/
inductive Slot where
  /-- Where nothing can be mistaken: a whole statement, inside brackets, after `=` and `in`. -/
  | top
  /-- The function of an application. -/
  | callee
  /-- The argument of an application. -/
  | argument
  /-- Right after a parameter of an abstraction, where more of them may follow. -/
  | afterParam
  deriving DecidableEq, Repr

namespace Slot

/-- Tokens in brackets. -/
def bracket (ts : List Token) : List Token := .lparen :: ts ++ [.rparen]

/-- Writes a name, a literal or a bracketed expression. -/
def atom (ts : List Token) : Slot → List Token
  | .afterParam => .arrow :: ts
  | _ => ts

/-- Writes an application. -/
def application (ts : List Token) : Slot → List Token
  | .afterParam => .arrow :: ts
  | .argument => bracket ts
  | .top | .callee => ts

/-- Writes an expression that reaches as far to the right as it can. -/
def openEnded (ts : List Token) : Slot → List Token
  | .afterParam => .arrow :: ts
  | .callee | .argument => bracket ts
  | .top => ts

end Slot

namespace Expr

/-- A function applied to arguments in turn. -/
def apps (fn : Expr) (args : List Expr) : Expr := args.foldl .app fn

/-- The tokens of an expression that stands in a slot. -/
def spell : Slot → Expr → List Token
  | slot, .var x => slot.atom [.ident x]
  | slot, .lit l => slot.atom [l.token]
  | slot, .app f a => slot.application (spell .callee f ++ spell .argument a)
  | .afterParam, .abs x e => .ident x :: spell .afterParam e
  | slot, .abs x e => slot.openEnded (.lambda :: .ident x :: spell .afterParam e)
  | slot, .letIn x b e =>
    slot.openEnded (.kwLet :: .ident x :: .equals :: spell .top b ++ .kwIn :: spell .top e)

/-- The text of an expression. -/
def print (e : Expr) : String := Token.line (e.spell .top)

end Expr

end LetPoly
