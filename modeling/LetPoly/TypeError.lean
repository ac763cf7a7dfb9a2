import LetPoly.Ty.Printer

/-!
# Type errors
-/

namespace LetPoly

/-- Why an expression has no type. -/
inductive TypeError where
  | unboundVariable (name : String)
  /-- A variable would have to equal a type that it is part of. -/
  | infinite (var : TyVar) (ty : Ty)
  | mismatch (left right : Ty)
  deriving DecidableEq, Repr

/-- A type error in words. The two sides of a mismatch share their letters; an infinite type is
shown with the variables' own names. -/
def TypeError.message : TypeError → String
  | .unboundVariable x => "Unbound variable '" ++ x ++ "'"
  | .infinite a t => "Infinite type: " ++ a ++ " occurs in " ++ t.print id
  | .mismatch t u =>
    let (left, names) := Naming.new.ty t
    "Cannot unify " ++ left ++ " with " ++ (names.ty u).1

end LetPoly
