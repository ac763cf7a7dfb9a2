import LetPoly.Program.Parser
import LetPoly.TypeError

/-!
# Errors of a program

An error is a cause and the place in the source text to blame for it.
-/

namespace LetPoly

/-- Why a source text is not a program, or a program not well typed. -/
inductive Fault where
  | lexical (fault : LexFault)
  | grammatical (fault : ParseFault)
  | typing (error : TypeError)
  deriving DecidableEq, Repr

abbrev Error := Located Fault

def LexFault.message : LexFault → String
  | .unexpectedCharacter c => "Unexpected character '" ++ String.singleton c ++ "'"
  | .invalidNumber digits => "Invalid integer literal '" ++ digits ++ "'"

def ParseFault.message : ParseFault → String
  | .unexpectedToken found expected =>
    "Unexpected token '" ++ found ++ "', expected " ++ expected
  | .unexpectedEnd expected => "Unexpected end of input, expected " ++ expected

/-- The cause in words, after the stage that found it. -/
def Fault.message : Fault → String
  | .lexical f => "Lexer error: " ++ f.message
  | .grammatical f => "Parser error: " ++ f.message
  | .typing e => "Type error: " ++ e.message

/-- The tokens of a source text. -/
def tokensOf (source : String) : Except Error (List (Located Token)) :=
  (tokenize source).mapError fun f => ⟨.lexical f.val, f.span⟩

/-- Reads a whole source text. -/
def parse {α : Type} (reader : ParseM α) (source : String) : Except Error α := do
  let tokens ← tokensOf source
  (reader (.ofTokens tokens)).1.mapError fun f => ⟨.grammatical f.val, f.span⟩

/-- The expression that a source text is. -/
def Expr.parse (source : String) : Except Error Expr := LetPoly.parse Parser.soleExpression source

/-- The program that a source text is. -/
def Program.parse (source : String) : Except Error Program := LetPoly.parse Parser.program source

end LetPoly
