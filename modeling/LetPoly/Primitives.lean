import LetPoly.Subst

/-!
# Primitive functions
-/

namespace LetPoly

/-- The functions that every program can use. -/
def Env.primitives : Env := .ofList [
  ("identity", ⟨["a"], .fn (.var "a") (.var "a")⟩),
  ("const", ⟨["a", "b"], .curried [.var "a", .var "b"] (.var "a")⟩),
  ("add", .mono (.curried [.int, .int] .int)),
  ("gte", .mono (.curried [.int, .int] .bool)),
  ("if", ⟨["a"], .curried [.bool, .var "a", .var "a"] (.var "a")⟩)]

end LetPoly
