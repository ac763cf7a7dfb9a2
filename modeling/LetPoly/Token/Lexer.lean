import LetPoly.Token

/-!
# From text to tokens

A `Cursor` walks over the characters of a source text and knows its byte offset. `Cursor.next`
passes blanks and comments, then takes the longest token that begins there; after a fault it stands
behind the offending characters, so reading can go on. `tokenize` reads to the end of the text.
-/

namespace LetPoly

/-- Why no token could be read. -/
inductive LexFault where
  | unexpectedCharacter (char : Char)
  /-- The digits of a number of more than 63 bits. -/
  | invalidNumber (digits : String)
  deriving DecidableEq, Repr

namespace Lexer

/-- A letter or an underscore, in ASCII. -/
def startsWord (c : Char) : Bool := c.isAlpha || c == '_'

/-- A letter, a digit, an underscore or a prime, in ASCII. -/
def continuesWord (c : Char) : Bool := c.isAlphanum || c == '_' || c == '\''

def isBlank (c : Char) : Bool := c == ' ' || c == '\t' || c == '\n' || c == '\r'

/-- How many characters to pass before the next token. A comment goes from `--` to the end of its
line; `inComment` says that one has been opened. -/
def blankLength (inComment : Bool) : List Char → Nat
  | [] => 0
  | c :: cs =>
    if inComment then blankLength (c != '\n') cs + 1
    else if isBlank c then blankLength false cs + 1
    else if c = '-' ∧ cs.head? = some '-' then blankLength true cs + 1
    else 0

/-- The largest integer of 64 bits with a sign. -/
def maxInt : Nat := 9223372036854775807

/-- The number that digits write, if it fits. -/
def readNumber (digits : List Char) : Except LexFault Token :=
  let n := Nat.ofDigitChars 10 digits 0
  if n ≤ maxInt then .ok (.int (Int64.ofNat n)) else .error (.invalidNumber (String.ofList digits))

/-- What the characters begin with, and how many of them it takes. There are no blanks in front. -/
def lexeme : List Char → Nat × Except LexFault Token
  | [] => (0, .ok .eof)
  | c :: cs =>
    match Token.ofSymbol? c with
    | some t => (1, .ok t)
    | none =>
      if c = '-' ∧ cs.head? = some '>' then (2, .ok .arrow)
      else if c.isDigit then
        let digits := c :: cs.takeWhile Char.isDigit
        (digits.length, readNumber digits)
      else if startsWord c then
        let word := c :: cs.takeWhile continuesWord
        (word.length, .ok (Token.ofWord (String.ofList word)))
      else (1, .error (.unexpectedCharacter c))

theorem lexeme_cons_pos (c : Char) (cs : List Char) : 0 < (lexeme (c :: cs)).1 := by
  dsimp only [lexeme]
  cases Token.ofSymbol? c with
  | some t => exact Nat.one_pos
  | none =>
    dsimp only
    repeat' split
    all_goals simp

end Lexer

/-- One call of the reader: a token or a fault, with its place. -/
abbrev Reading := Except (Located LexFault) (Located Token)

/-- A place in a source text: the byte offset reached and the characters still to come. -/
structure Cursor where
  offset : Nat
  rest : List Char
  deriving DecidableEq, Repr

namespace Cursor

/-- The beginning of a text. -/
def ofString (source : String) : Cursor := ⟨0, source.toList⟩

/-- Passes `n` characters. -/
def skip (c : Cursor) (n : Nat) : Cursor :=
  ⟨c.offset + utf8Length (c.rest.take n), c.rest.drop n⟩

/-- Passes blanks and comments. -/
def skipBlanks (c : Cursor) : Cursor := c.skip (Lexer.blankLength false c.rest)

/-- Reads one token. At the end of the text this is `Token.eof`, again and again. -/
def next (c : Cursor) : Reading × Cursor :=
  let first := c.skipBlanks
  let found := Lexer.lexeme first.rest
  let last := first.skip found.1
  let span := ⟨first.offset, last.offset⟩
  match found.2 with
  | .ok t => (.ok ⟨t, span⟩, last)
  | .error f => (.error ⟨f, span⟩, last)

@[simp] theorem rest_skip (c : Cursor) (n : Nat) : (c.skip n).rest = c.rest.drop n := rfl

theorem rest_next (c : Cursor) :
    c.next.2.rest = c.skipBlanks.rest.drop (Lexer.lexeme c.skipBlanks.rest).1 := by
  unfold next
  dsimp only
  split <;> rfl

theorem length_rest_skipBlanks_le (c : Cursor) : c.skipBlanks.rest.length ≤ c.rest.length := by
  simp [skipBlanks]

/-- Unless the text has ended, a reading takes at least one character. -/
theorem length_rest_next_lt (c : Cursor) (h : c.skipBlanks.rest ≠ []) :
    c.next.2.rest.length < c.rest.length := by
  have hle := c.length_rest_skipBlanks_le
  rw [rest_next, List.length_drop]
  match hr : c.skipBlanks.rest with
  | [] => exact absurd hr h
  | d :: ds =>
    have := Lexer.lexeme_cons_pos d ds
    simp only [hr, List.length_cons] at hle ⊢
    omega

/-- All readings, of which the last, and only the last, is the end of the text. -/
def readings (c : Cursor) : List Reading :=
  if c.skipBlanks.rest = [] then [c.next.1] else c.next.1 :: c.next.2.readings
termination_by c.rest.length
decreasing_by exact c.length_rest_next_lt ‹_›

/-- The end of the text, behind the last of `readings`. -/
def finish (c : Cursor) : Cursor := c.skip c.rest.length

end Cursor

/-- The tokens of a source text, the last of them `Token.eof`, or the first fault in it. -/
def tokenize (source : String) : Except (Located LexFault) (List (Located Token)) :=
  (Cursor.ofString source).readings.mapM id

end LetPoly
