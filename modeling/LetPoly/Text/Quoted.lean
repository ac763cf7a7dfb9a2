import LetPoly.Text.Shapeless

/-!
# Quoted text

Text between quotes. Quotes and backslashes take a backslash, and so do the letters that stand for
line ends, tabs and the zero character. Any other character without a shape of its own is written as
its code.
-/

namespace LetPoly.Quoted

/-- The code of a character in hexadecimal, between braces. -/
def code (c : Char) : List Char := ['\\', 'u', '{'] ++ Nat.toDigits 16 c.toNat ++ ['}']

/-- How a character is written. -/
def char (c : Char) : List Char :=
  if c = '"' ∨ c = '\\' then ['\\', c]
  else if c = '\n' then ['\\', 'n']
  else if c = '\r' then ['\\', 'r']
  else if c = '\t' then ['\\', 't']
  else if c.toNat = 0 then ['\\', '0']
  else if isShapeless c then code c
  else [c]

end LetPoly.Quoted

namespace LetPoly

/-- A text between quotes. -/
def quoted (text : String) : String :=
  "\"" ++ String.ofList (text.toList.flatMap Quoted.char) ++ "\""

end LetPoly
