import LetPoly.Program
import LetPoly.Token.Lexer

/-!
# From tokens to programs

Expressions are read one token at a time. What has been begun around the expression in hand is kept
on a stack of frames, innermost first, and a `Phase` says what is being read right now. A token is
either used (`Machine.shift?`) or not; one that cannot be used ends the expression if nothing around
it is left open, and is an error otherwise (`Machine.verdict`). So every error is at the first token
that no program could have in its place, and tokens before it stay read.

Statements and programs are read by `ParseM`, which keeps its place in the tokens after an error. No
reader moves back (`Parser.Moves`), so reading one statement after the other comes to an end.
-/

namespace LetPoly

/-- Why tokens are not a program, with what was expected described in words. -/
inductive ParseFault where
  | unexpectedToken (found expected : String)
  | unexpectedEnd (expected : String)
  deriving DecidableEq, Repr

/-- Tokens to be read, and the place of the one that was read last. -/
structure Stream where
  last : Span
  rest : List (Located Token)
  deriving DecidableEq, Repr

namespace Stream

def ofTokens (tokens : List (Located Token)) : Stream := ⟨.nowhere, tokens⟩

/-- The next token; after the last one the input has ended. -/
def peek (s : Stream) : Located Token := s.rest.headD ⟨.eof, .nowhere⟩

/-- Moves past the next token, if there is one. -/
def advance (s : Stream) : Stream :=
  match s.rest with
  | [] => s
  | t :: ts => ⟨t.span, ts⟩

/-- The error that the next token is not what was expected. -/
def unexpected (s : Stream) (expected : String) : Located ParseFault :=
  match s.peek.val with
  | .eof => ⟨.unexpectedEnd expected, s.peek.span⟩
  | t => ⟨.unexpectedToken t.text expected, s.peek.span⟩

end Stream

/-- The place of the last of some tokens; `last` is the place of the one before them. -/
def lastSpan (last : Span) (toks : List (Located Token)) : Span := toks.foldl (fun _ t => t.span) last

@[simp] theorem lastSpan_cons (last : Span) (t : Located Token) (toks : List (Located Token)) :
    lastSpan last (t :: toks) = lastSpan t.span toks := rfl

@[simp] theorem lastSpan_append (last : Span) (toks toks' : List (Located Token)) :
    lastSpan last (toks ++ toks') = lastSpan (lastSpan last toks) toks' := List.foldl_append

namespace Stream

/-- A stream that is left after some tokens of another. -/
def Reaches (s s' : Stream) : Prop :=
  ∃ used, s.rest = used ++ s'.rest ∧ s'.last = lastSpan s.last used

theorem Reaches.refl (s : Stream) : s.Reaches s := ⟨[], rfl, rfl⟩

theorem Reaches.trans {s₁ s₂ s₃ : Stream} (h : s₁.Reaches s₂) (h' : s₂.Reaches s₃) :
    s₁.Reaches s₃ := by
  obtain ⟨used, hrest, hlast⟩ := h
  obtain ⟨used', hrest', hlast'⟩ := h'
  refine ⟨used ++ used', ?_, ?_⟩
  · rw [hrest, hrest', List.append_assoc]
  · rw [hlast', hlast, lastSpan_append]

theorem reaches_advance (s : Stream) : s.Reaches s.advance := by
  obtain ⟨last, _ | ⟨t, ts⟩⟩ := s
  · exact .refl _
  · exact ⟨[t], rfl, rfl⟩

end Stream

/-- How an expected token is described. -/
def Token.quoted (t : Token) : String := "'" ++ t.text ++ "'"

/-- The expression that a token is by itself. -/
def Token.atom? : Token → Option Expr
  | .int n => some (.lit (.int n))
  | .kwTrue => some (.lit (.bool true))
  | .kwFalse => some (.lit (.bool false))
  | .ident x => some (.var x)
  | _ => none

/-- A construct that has been begun and lacks an expression. -/
inductive Frame where
  /-- `let name = …` -/
  | bound (name : String)
  /-- `let name = value in …` -/
  | body (name : String) (value : Expr)
  /-- `\param -> …` -/
  | abs (param : String)
  /-- `( …`, to which `callee` is to be applied if there is one. -/
  | bracket (callee : Option Expr)
  deriving DecidableEq, Repr

/-- What is being read. -/
inductive Phase where
  /-- An expression is about to begin. -/
  | start
  /-- The name after `let`. -/
  | name
  /-- The `=` after that name. -/
  | equals (name : String)
  /-- The first parameter of an abstraction. -/
  | param
  /-- More parameters or the arrow. -/
  | params
  /-- An expression that more arguments may follow. -/
  | spine (e : Expr)
  deriving DecidableEq, Repr

namespace Machine

/-- Where an expression belongs once everything that ends with it has ended too. -/
inductive Context where
  | whole (e : Expr)
  | bound (name : String) (e : Expr) (outer : List Frame)
  | bracket (callee : Option Expr) (e : Expr) (outer : List Frame)
  deriving DecidableEq, Repr

/-- Ends the abstractions and the bodies of `let` that an expression closes. -/
def close (e : Expr) : List Frame → Context
  | [] => .whole e
  | .abs x :: fs => close (.abs x e) fs
  | .body x v :: fs => close (.letIn x v e) fs
  | .bound x :: fs => .bound x e fs
  | .bracket callee :: fs => .bracket callee e fs

/-- An expression in brackets, applied to if it is an argument. -/
def applyTo : Option Expr → Expr → Expr
  | none, e => e
  | some f, e => .app f e

/-- Uses a token, if it can be used. -/
def shift? : List Frame → Phase → Token → Option (List Frame × Phase)
  | fs, .start, .kwLet => some (fs, .name)
  | fs, .start, .lambda => some (fs, .param)
  | fs, .start, .kwFun => some (fs, .param)
  | fs, .start, .lparen => some (.bracket none :: fs, .start)
  | fs, .start, t => t.atom?.map fun e => (fs, .spine e)
  | fs, .name, .ident x => some (fs, .equals x)
  | fs, .equals x, .equals => some (.bound x :: fs, .start)
  | fs, .param, .ident x => some (.abs x :: fs, .params)
  | fs, .params, .ident x => some (.abs x :: fs, .params)
  | fs, .params, .arrow => some (fs, .start)
  | fs, .spine f, .lparen => some (.bracket (some f) :: fs, .start)
  | fs, .spine e, .kwIn =>
    match close e fs with
    | .bound x v outer => some (.body x v :: outer, .start)
    | _ => none
  | fs, .spine e, .rparen =>
    match close e fs with
    | .bracket callee e outer => some (outer, .spine (applyTo callee e))
    | _ => none
  | fs, .spine f, t => t.atom?.map fun a => (fs, .spine (.app f a))
  | _, _, _ => none

/-- What to answer at a token that cannot be used: the expression if it is whole, and what was
expected if it is not. -/
def verdict : List Frame → Phase → Except String Expr
  | _, .start => .error "expression"
  | _, .name | _, .param => .error "identifier"
  | _, .equals _ => .error Token.equals.quoted
  | _, .params => .error Token.arrow.quoted
  | fs, .spine e =>
    match close e fs with
    | .whole e => .ok e
    | .bound .. => .error Token.kwIn.quoted
    | .bracket .. => .error Token.rparen.quoted

/-- Reads on until a token cannot be used. -/
def run (fs : List Frame) (phase : Phase) (last : Span) :
    List (Located Token) → Except (Located ParseFault) Expr × Stream
  | [] => halt fs phase ⟨last, []⟩
  | t :: ts =>
    match shift? fs phase t.val with
    | some (fs', phase') => run fs' phase' t.span ts
    | none => halt fs phase ⟨last, t :: ts⟩
where
  /-- Stops in front of a token. -/
  halt (fs : List Frame) (phase : Phase) (s : Stream) :
      Except (Located ParseFault) Expr × Stream :=
    match verdict fs phase with
    | .ok e => (.ok e, s)
    | .error expected => (.error (s.unexpected expected), s)

@[simp] theorem halt_snd (fs : List Frame) (phase : Phase) (s : Stream) :
    (run.halt fs phase s).2 = s := by
  unfold run.halt
  split <;> rfl

/-- The machine moves past the tokens that it uses. -/
theorem run_reaches (fs : List Frame) (phase : Phase) (last : Span) (ts : List (Located Token)) :
    (Stream.mk last ts).Reaches (run fs phase last ts).2 := by
  induction ts generalizing fs phase last with
  | nil =>
    rw [run, halt_snd]
    exact .refl _
  | cons t ts ih =>
    rw [run]
    split
    · exact (Stream.reaches_advance ⟨last, t :: ts⟩).trans (ih ..)
    · rw [halt_snd]
      exact .refl _

end Machine

/-- Reading tokens: the place in them is kept, after an error too. -/
abbrev ParseM := ExceptT (Located ParseFault) (StateM Stream)

namespace Parser

/-- Moves past a given token. -/
def expect (t : Token) : ParseM Unit := fun s =>
  if s.peek.val = t then (.ok (), s.advance) else (.error (s.unexpected t.quoted), s)

/-- Moves past an identifier. -/
def identifier : ParseM String := fun s =>
  match s.peek.val with
  | .ident x => (.ok x, s.advance)
  | _ => (.error (s.unexpected "identifier"), s)

/-- Reads the longest expression that begins here. -/
def expression : ParseM Expr := fun s => Machine.run [] .start s.last s.rest

/-- Reads the rest of a statement that begins with `let`: a definition, or an expression if `in`
follows. -/
def definition : ParseM Statement := do
  expect .kwLet
  let x ← identifier
  expect .equals
  let bound ← expression
  if (← get).peek.val = .kwIn then
    expect .kwIn
    return ⟨none, .letIn x bound (← expression)⟩
  else
    return ⟨some x, bound⟩

/-- Reads an expression as a statement. -/
def bareExpression : ParseM Statement := do
  return ⟨none, ← expression⟩

/-- Reads either kind of statement. -/
def anyStatement : ParseM Statement := fun s =>
  if s.peek.val = .kwLet then definition s else bareExpression s

/-- Reads a statement; its place goes from its first token to its last. -/
def statement : ParseM (Located Statement) := do
  let start := (← get).peek.span.start
  let s ← anyStatement
  return ⟨s, start, (← get).last.stop⟩

/-! ### Steps of a reader -/

section Steps

variable {α β : Type} {p : ParseM α} {f : α → ParseM β} {s s' : Stream}

theorem bind_of_ok {a : α} (h : p s = (.ok a, s')) : (p >>= f) s = f a s' := by
  simp only [bind, ExceptT.bind, ExceptT.mk, StateT.bind, h]
  rfl

theorem bind_of_error {e : Located ParseFault} (h : p s = (.error e, s')) :
    (p >>= f) s = (.error e, s') := by
  simp only [bind, ExceptT.bind, ExceptT.mk, StateT.bind, h]
  rfl

theorem get_bind (f : Stream → ParseM β) (s : Stream) : (get >>= f : ParseM β) s = f s s := rfl

theorem expect_of_peek {t : Token} (h : s.peek.val = t) : expect t s = (.ok (), s.advance) :=
  if_pos h

end Steps

/-! ### Readers only move forward -/

/-- Whatever a reader answers, it has moved past some tokens, or none. -/
def Moves {α : Type} (p : ParseM α) : Prop := ∀ s : Stream, s.Reaches (p s).2

/-- What a reader leaves is the end of what it was given, whether it succeeds or fails. -/
def Forward {α : Type} (p : ParseM α) : Prop := ∀ s : Stream, (p s).2.rest <:+ s.rest

section Moves

variable {α β : Type} {p : ParseM α}

theorem Moves.forward (hp : Moves p) : Forward p := by
  intro s
  obtain ⟨used, hrest, -⟩ := hp s
  exact ⟨used, hrest.symm⟩

theorem Moves.of_eq {s s' : Stream} {r : Except (Located ParseFault) α} (hp : Moves p)
    (h : p s = (r, s')) : s.Reaches s' := by
  have hs := hp s
  rwa [h] at hs

theorem Moves.pure (a : α) : Moves (Pure.pure a : ParseM α) := .refl

theorem Moves.get {f : Stream → ParseM α} (h : ∀ s, Moves (f s)) : Moves (MonadState.get >>= f) :=
  fun s => h s s

theorem Moves.bind {f : α → ParseM β} (hp : Moves p) (hf : ∀ a, Moves (f a)) : Moves (p >>= f) := by
  intro s
  match hread : p s with
  | (.ok a, s') =>
    rw [bind_of_ok hread]
    exact (hp.of_eq hread).trans (hf a s')
  | (.error e, s') =>
    rw [bind_of_error hread]
    exact hp.of_eq hread

end Moves

theorem moves_expect (t : Token) : Moves (expect t) := by
  intro s
  unfold expect
  split
  · exact s.reaches_advance
  · exact .refl s

theorem moves_identifier : Moves identifier := by
  intro s
  unfold identifier
  split
  · exact s.reaches_advance
  · exact .refl s

theorem moves_expression : Moves expression := fun s => Machine.run_reaches [] .start s.last s.rest

theorem moves_definition : Moves definition := by
  refine (moves_expect _).bind fun _ => moves_identifier.bind fun x =>
    (moves_expect _).bind fun _ => moves_expression.bind fun b => .get fun s => ?_
  split
  · exact (moves_expect _).bind fun _ => moves_expression.bind fun _ => .pure _
  · exact .pure _

theorem moves_bareExpression : Moves bareExpression := moves_expression.bind fun _ => .pure _

theorem moves_anyStatement : Moves anyStatement := by
  intro s
  unfold anyStatement
  split
  · exact moves_definition s
  · exact moves_bareExpression s

theorem moves_statement : Moves statement :=
  .get fun _ => moves_anyStatement.bind fun _ => .get fun _ => .pure _

/-! ### Programs -/

theorem length_rest_advance_lt {s s' : Stream} {r : Except (Located ParseFault) (Located Statement)}
    (hread : statement s = (r, s')) (hsemi : s'.peek.val = .semicolon) :
    s'.advance.rest.length < s.rest.length := by
  have hle := (moves_statement.forward s).length_le
  rw [hread] at hle
  refine Nat.lt_of_lt_of_le ?_ hle
  match hr : s'.rest with
  | [] => simp [Stream.peek, hr] at hsemi
  | t :: ts => simp [Stream.advance, hr]

/-- Reads statements with a semicolon after each, which the last one may lack. -/
def statements (s : Stream) : Except (Located ParseFault) (List (Located Statement)) × Stream :=
  if s.peek.val = .eof then (.ok [], s)
  else
    match hread : statement s with
    | (.error e, s') => (.error e, s')
    | (.ok first, s') =>
      if hsemi : s'.peek.val = .semicolon then
        have := length_rest_advance_lt hread hsemi
        match statements s'.advance with
        | (.error e, s'') => (.error e, s'')
        | (.ok more, s'') => (.ok (first :: more), s'')
      else (.ok [first], s')
termination_by s.rest.length

/-- Reads a program up to the end of input. Its place goes from its first token to the end of its
last statement. -/
def program : ParseM Program := do
  let start := (← get).peek.span.start
  let ss ← statements
  expect .eof
  return ⟨ss, start, match ss.getLast? with
    | some s => s.span.stop
    | none => start⟩

/-- Reads an expression and the end of input after it. -/
def soleExpression : ParseM Expr := do
  let e ← expression
  expect .eof
  return e

end Parser

end LetPoly
