import LetPoly.Text.Quoted
import LetPoly.Ty

/-!
# How types are written

A type is written with a name for each variable. A `Naming` decides the names: the variables' own,
or letters given out in the order in which variables are met, `a` to `z`, then `a1` to `z1` and so
on. A naming that has met a variable keeps its letter, so several types can share one.

`Ty.outline` writes a type by its constructors, as the log shows it.
-/

namespace LetPoly

namespace Ty

/-- Writes a type with given names. A function that is an argument stands in brackets. -/
def print (name : TyVar → String) : Ty → String
  | .var a => name a
  | .fn t u =>
    let arg := t.print name
    (if t.isFn then "(" ++ arg ++ ")" else arg) ++ " -> " ++ u.print name
  | .int => "Int"
  | .bool => "Bool"

end Ty

/-- The names of variables, with those that have a letter in the order of their letters. -/
inductive Naming where
  | own
  | letters (met : List TyVar)
  deriving DecidableEq, Repr

namespace Naming

/-- The letters with nothing met yet. -/
def new : Naming := .letters []

/-- The name with a given place in the order `a`, …, `z`, `a1`, …, `z1`, `a2`, … -/
def letter (i : Nat) : String :=
  let c := String.singleton (Char.ofNat ('a'.toNat + i % 26))
  if i < 26 then c else c ++ toString (i / 26)

/-- Gives letters to variables that have none. -/
def meet (vars : List TyVar) : Naming → Naming
  | .own => .own
  | .letters met => .letters (vars.foldl (fun met a => if a ∈ met then met else met ++ [a]) met)

/-- The name of a variable that has been met. -/
def name : Naming → TyVar → String
  | .own, a => a
  | .letters met, a => letter (met.idxOf a)

/-- Writes a type, meeting its variables. -/
def ty (n : Naming) (t : Ty) : String × Naming :=
  let n := n.meet t.freeVars
  (t.print n.name, n)

/-- Writes a scheme, meeting the variables of its body before the quantified ones. -/
def scheme (n : Naming) (σ : Scheme) : String × Naming :=
  if σ.isMono then n.ty σ.body
  else
    let (body, n) := n.ty σ.body
    let n := n.meet σ.vars
    ("forall" ++ String.join (σ.vars.map (" " ++ n.name ·)) ++ ". " ++ body, n)

/-- Writes schemes in turn, each with the letters that the ones before it were given. -/
def schemes (n : Naming) : List Scheme → List String
  | [] => []
  | σ :: σs =>
    let (text, n) := n.scheme σ
    text :: n.schemes σs

end Naming

/-- A type written with letters. -/
def Ty.text (t : Ty) : String := (Naming.new.ty t).1

/-- A scheme written with letters. -/
def Scheme.text (σ : Scheme) : String := (Naming.new.scheme σ).1

namespace Ty

/-- Writes a type by its constructors. -/
def outline : Ty → String
  | .var a => "Var(TVarName(" ++ quoted a ++ "))"
  | .fn t u => "Func(" ++ t.outline ++ ", " ++ u.outline ++ ")"
  | .int => "Int"
  | .bool => "Bool"

end Ty

end LetPoly
