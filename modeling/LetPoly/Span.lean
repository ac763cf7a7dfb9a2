/-!
# Places in a source text

A place is a range of bytes of the text in UTF-8. Tokens, statements and errors all carry one.
-/

namespace LetPoly

/-- The bytes from `start` up to, and without, `stop`. -/
structure Span where
  start : Nat
  stop : Nat
  deriving DecidableEq, Repr

/-- The place of what is not in the text at all, such as an end of input nobody wrote down. -/
def Span.nowhere : Span := ⟨0, 0⟩

/-- A value and the place in the source text it was read from. -/
structure Located (α : Type) where
  val : α
  span : Span
  deriving DecidableEq, Repr

/-- The number of bytes that characters take in UTF-8. -/
def utf8Length : List Char → Nat
  | [] => 0
  | c :: cs => c.utf8Size + utf8Length cs

@[simp] theorem utf8Length_nil : utf8Length [] = 0 := rfl

@[simp] theorem utf8Length_cons (c : Char) (cs : List Char) :
    utf8Length (c :: cs) = c.utf8Size + utf8Length cs := rfl

@[simp] theorem utf8Length_append (cs ds : List Char) :
    utf8Length (cs ++ ds) = utf8Length cs + utf8Length ds := by
  induction cs with
  | nil => simp
  | cons c cs ih => simp [ih, Nat.add_assoc]

end LetPoly
