import LetPoly.Span

/-!
# Tokens

The words that programs are made of, and how each one is written. A lambda is written `\` or `λ`
in a source text; `Token.text` always gives the first.
-/

namespace LetPoly

inductive Token where
  | kwLet
  | kwIn
  | kwFun
  | kwTrue
  | kwFalse
  /-- An integer that fits in 64 bits. -/
  | int (value : Int64)
  | ident (name : String)
  | lambda
  | arrow
  | equals
  | lparen
  | rparen
  | semicolon
  | eof
  deriving DecidableEq, Repr

namespace Token

/-- How a token is written; the end of input is described in words. -/
def text : Token → String
  | .kwLet => "let"
  | .kwIn => "in"
  | .kwFun => "fun"
  | .kwTrue => "true"
  | .kwFalse => "false"
  | .int n => toString n.toInt
  | .ident x => x
  | .lambda => "\\"
  | .arrow => "->"
  | .equals => "="
  | .lparen => "("
  | .rparen => ")"
  | .semicolon => ";"
  | .eof => "end of input"

/-- The token that a word stands for: a keyword if it is one, an identifier otherwise. -/
def ofWord (word : String) : Token :=
  if word = "let" then .kwLet
  else if word = "in" then .kwIn
  else if word = "fun" then .kwFun
  else if word = "true" then .kwTrue
  else if word = "false" then .kwFalse
  else .ident word

/-- The tokens that are a single character. -/
def ofSymbol? (c : Char) : Option Token :=
  if c = '(' then some .lparen
  else if c = ')' then some .rparen
  else if c = ';' then some .semicolon
  else if c = '=' then some .equals
  else if c = '\\' ∨ c = 'λ' then some .lambda
  else none

/-- Whether a blank is written between two neighbours: an opening bracket and a lambda hold on to
what follows them, a closing bracket and a semicolon to what precedes them. -/
def spaced : Token → Token → Bool
  | .lparen, _ | .lambda, _ => false
  | _, .rparen | _, .semicolon => false
  | _, _ => true

/-- The characters of a line of tokens, with single blanks where `spaced` asks for them. -/
def chars : List Token → List Char
  | [] => []
  | [t] => t.text.toList
  | t :: u :: ts => t.text.toList ++ (if t.spaced u then ' ' :: chars (u :: ts) else chars (u :: ts))

/-- A line of tokens as text. -/
def line (ts : List Token) : String := String.ofList (chars ts)

end Token

end LetPoly
