import LetPoly.Program.Parser

/-!
# The grammar, and that its phrases are read

```text
program := (stmt (';' stmt)* ';'?)?
stmt    := 'let' IDENT '=' expr | expr
expr    := 'let' IDENT '=' expr 'in' expr | ('\' | 'fun') IDENT+ '->' expr | app
app     := atom | app atom
atom    := INT | 'true' | 'false' | IDENT | '(' expr ')'
```

A `Phrase` is a derivation of an expression in this grammar, kept as a tree: it knows every bracket
and how each lambda was written. `Phrase.tokens` are the tokens that it derives and `Phrase.expr` is
the expression they stand for; `Clause` is the same for statements.

The reader accepts every phrase. Its machine may leave abstractions and bodies of `let` open until
it sees what follows, so the expression in hand is not yet that of the phrase; but once all that ends
with it is closed, the two are the same (`Category.Reads`).
-/

namespace LetPoly

/-- The kinds of phrases that expressions are made of. -/
inductive Category where
  | expr
  | app
  | atom

/-- How an expression is written. -/
inductive Phrase : Category → Type where
  /-- `let x = bound in body` -/
  | letIn (x : String) (bound body : Phrase .expr) : Phrase .expr
  /-- `\x more -> body`, or with the word `fun`. -/
  | abs (word : Bool) (x : String) (more : List String) (body : Phrase .expr) : Phrase .expr
  | app (p : Phrase .app) : Phrase .expr
  | atom (p : Phrase .atom) : Phrase .app
  | apply (fn : Phrase .app) (arg : Phrase .atom) : Phrase .app
  | name (x : String) : Phrase .atom
  | lit (l : Literal) : Phrase .atom
  | bracket (p : Phrase .expr) : Phrase .atom

namespace Phrase

/-- The token that begins an abstraction. -/
def lambdaToken (word : Bool) : Token := if word then .kwFun else .lambda

/-- The tokens of a phrase. -/
def tokens {c : Category} : Phrase c → List Token
  | .letIn x b e => .kwLet :: .ident x :: .equals :: (b.tokens ++ .kwIn :: e.tokens)
  | .abs word x more e => lambdaToken word :: .ident x :: (more.map .ident ++ .arrow :: e.tokens)
  | .app p => p.tokens
  | .atom p => p.tokens
  | .apply f a => f.tokens ++ a.tokens
  | .name x => [.ident x]
  | .lit l => [l.token]
  | .bracket p => .lparen :: (p.tokens ++ [.rparen])

/-- The expression that a phrase stands for. -/
def expr {c : Category} : Phrase c → Expr
  | .letIn x b e => .letIn x b.expr e.expr
  | .abs _ x more e => .abs x (more.foldr .abs e.expr)
  | .app p => p.expr
  | .atom p => p.expr
  | .apply f a => .app f.expr a.expr
  | .name x => .var x
  | .lit l => .lit l
  | .bracket p => p.expr

end Phrase

/-! ### The machine reads phrases -/

namespace Machine

/-- Uses tokens one after the other, if all of them can be used. -/
def shiftAll? (fs : List Frame) (phase : Phase) (ts : List Token) : Option (List Frame × Phase) :=
  ts.foldlM (fun st t => shift? st.1 st.2 t) (fs, phase)

@[simp] theorem shiftAll?_nil (fs : List Frame) (phase : Phase) :
    shiftAll? fs phase [] = some (fs, phase) := rfl

@[simp] theorem shiftAll?_cons (fs : List Frame) (phase : Phase) (t : Token) (ts : List Token) :
    shiftAll? fs phase (t :: ts) =
      (shift? fs phase t).bind fun st => shiftAll? st.1 st.2 ts := rfl

theorem shiftAll?_append (fs : List Frame) (phase : Phase) (ts us : List Token) :
    shiftAll? fs phase (ts ++ us) =
      (shiftAll? fs phase ts).bind fun st => shiftAll? st.1 st.2 us :=
  List.foldlM_append

/-- More parameters are stacked on those before. -/
theorem shiftAll?_params (fs : List Frame) (xs : List String) :
    shiftAll? fs .params (xs.map .ident) = some ((xs.map .abs).reverse ++ fs, .params) := by
  induction xs generalizing fs with
  | nil => rfl
  | cons x xs ih => simp [shift?, ih]

/-- An expression that closes abstractions gets their parameters back. -/
theorem close_params (e : Expr) (xs : List String) (fs : List Frame) :
    close e ((xs.map .abs).reverse ++ fs) = close (xs.foldr .abs e) fs := by
  induction xs generalizing fs with
  | nil => rfl
  | cons x xs ih => simp [ih, close]

end Machine

open Machine in
/-- What it means that tokens are read as an expression, for each kind of phrase. An application is in
hand as such, and an atom as an argument too if a function was there; of an expression only what it
closes counts. -/
def Category.Reads : Category → List Token → Expr → Prop
  | .expr, ts, e => ∀ fs, ∃ fs' e', shiftAll? fs .start ts = some (fs', .spine e') ∧
      close e' fs' = close e fs
  | .app, ts, e => ∀ fs, shiftAll? fs .start ts = some (fs, .spine e)
  | .atom, ts, e => ∀ fs, shiftAll? fs .start ts = some (fs, .spine e) ∧
      ∀ f, shiftAll? fs (.spine f) ts = some (fs, .spine (.app f e))

open Machine in
/-- **Phrases are read.** -/
theorem Phrase.reads {c : Category} (p : Phrase c) : c.Reads p.tokens p.expr := by
  induction p with
  | letIn x b e ihb ihe =>
    intro fs
    obtain ⟨fs₁, e₁, hb, hclose₁⟩ := ihb (.bound x :: fs)
    obtain ⟨fs₂, e₂, he, hclose₂⟩ := ihe (.body x b.expr :: fs)
    refine ⟨fs₂, e₂, ?_, hclose₂⟩
    simp [tokens, shift?, shiftAll?_append, hb, hclose₁, close, he]
  | abs word x more e ih =>
    intro fs
    obtain ⟨fs', e', he, hclose⟩ := ih ((more.map .abs).reverse ++ .abs x :: fs)
    refine ⟨fs', e', ?_, ?_⟩
    · cases word <;>
        simp [tokens, lambdaToken, shift?, shiftAll?_append, shiftAll?_params, he]
    · rw [hclose, close_params]
      rfl
  | app p ih => exact fun fs => ⟨fs, p.expr, ih fs, rfl⟩
  | atom p ih => exact fun fs => (ih fs).1
  | apply f a ihf iha =>
    intro fs
    simp [tokens, shiftAll?_append, ihf fs, (iha fs).2 f.expr, expr]
  | name x => exact fun fs => ⟨rfl, fun f => rfl⟩
  | lit l =>
    intro fs
    cases l with
    | int n => exact ⟨rfl, fun f => rfl⟩
    | bool b => cases b <;> exact ⟨rfl, fun f => rfl⟩
  | bracket p ih =>
    intro fs
    have inside : ∀ callee, shiftAll? (.bracket callee :: fs) .start (p.tokens ++ [.rparen]) =
        some (fs, .spine (applyTo callee p.expr)) := by
      intro callee
      obtain ⟨fs', e', hp, hclose⟩ := ih (.bracket callee :: fs)
      simp [shiftAll?_append, hp, shift?, hclose, close]
    exact ⟨inside none, fun f => inside (some f)⟩

/-! ### Expressions in a stream of tokens -/

/-- The first of some tokens; after the last one the input has ended. -/
def nextToken (toks : List (Located Token)) : Token := (toks.headD ⟨.eof, .nowhere⟩).val

@[simp] theorem peek_val (last : Span) (rest : List (Located Token)) :
    (Stream.mk last rest).peek.val = nextToken rest := rfl

/-- Whether a token can begin an argument. -/
def Token.startsAtom (t : Token) : Bool := t == .lparen || t.atom?.isSome

namespace Machine

theorem run_append {fs fs' : List Frame} {phase phase' : Phase} {toks : List (Located Token)}
    (h : shiftAll? fs phase (toks.map Located.val) = some (fs', phase')) (last : Span)
    (rest : List (Located Token)) :
    run fs phase last (toks ++ rest) = run fs' phase' (lastSpan last toks) rest := by
  induction toks generalizing fs phase last with
  | nil =>
    obtain ⟨rfl, rfl⟩ := Prod.mk.inj (Option.some.inj h)
    rfl
  | cons t toks ih =>
    rw [List.map_cons, shiftAll?_cons] at h
    obtain ⟨⟨fs₁, phase₁⟩, hshift, h⟩ := Option.bind_eq_some_iff.1 h
    rw [List.cons_append, run, hshift]
    exact ih h t.span

/-- With nothing left open, only an argument can go on. -/
theorem shift?_whole {fs : List Frame} {e e' : Expr} (hclose : close e' fs = .whole e) {t : Token}
    (ht : t.startsAtom = false) : shift? fs (.spine e') t = none := by
  cases t with
  | lparen | int | kwTrue | kwFalse | ident => cases ht
  | kwIn | rparen => simp [shift?, hclose]
  | kwLet | kwFun | lambda | arrow | equals | semicolon | eof => rfl

theorem run_whole {fs : List Frame} {e e' : Expr} (hclose : close e' fs = .whole e) (last : Span)
    {rest : List (Located Token)} (hnext : (nextToken rest).startsAtom = false) :
    run fs (.spine e') last rest = (.ok e, ⟨last, rest⟩) := by
  have hhalt : run.halt fs (.spine e') ⟨last, rest⟩ = (.ok e, ⟨last, rest⟩) := by
    simp [run.halt, verdict, hclose]
  cases rest with
  | nil => exact hhalt
  | cons t ts =>
    have hnext : t.val.startsAtom = false := hnext
    rw [run, shift?_whole hclose hnext]
    exact hhalt

end Machine

namespace Parser

variable {last : Span} {rest : List (Located Token)}

/-- An expression is read up to the first token that cannot begin an argument. -/
theorem expression_phrase (p : Phrase .expr) {toks : List (Located Token)}
    (htoks : toks.map Located.val = p.tokens)
    (hnext : (nextToken rest).startsAtom = false) :
    expression ⟨last, toks ++ rest⟩ = (.ok p.expr, ⟨lastSpan last toks, rest⟩) := by
  obtain ⟨fs, e, hshift, hclose⟩ := p.reads []
  rw [expression, Machine.run_append (htoks ▸ hshift)]
  exact Machine.run_whole hclose _ hnext

theorem expect_cons {t : Located Token} {tok : Token} (ht : t.val = tok) :
    expect tok ⟨last, t :: rest⟩ = (.ok (), ⟨t.span, rest⟩) := by
  simp [expect, Stream.peek, Stream.advance, ht]

theorem identifier_cons {t : Located Token} {x : String} (ht : t.val = .ident x) :
    identifier ⟨last, t :: rest⟩ = (.ok x, ⟨t.span, rest⟩) := by
  simp [identifier, Stream.peek, Stream.advance, ht]

end Parser

/-! ### Statements and programs -/

/-- How a statement is written. -/
inductive Clause where
  /-- `let x = value` -/
  | definition (x : String) (value : Phrase .expr)
  | bare (p : Phrase .expr)

namespace Clause

def tokens : Clause → List Token
  | .definition x p => .kwLet :: .ident x :: .equals :: p.tokens
  | .bare p => p.tokens

def statement : Clause → Statement
  | .definition x p => ⟨some x, p.expr⟩
  | .bare p => ⟨none, p.expr⟩

/-- The tokens of a program: statements with semicolons between them, and perhaps one at the end. -/
def sequence (ended : Bool) : List Clause → List Token
  | [] => []
  | c :: cs =>
    c.tokens ++ if cs.isEmpty && !ended then [] else .semicolon :: sequence ended cs

end Clause

/-- A phrase begins with a token, which begins an atom unless the phrase reaches further than
applications do. -/
theorem Phrase.exists_tokens_cons {c : Category} (p : Phrase c) :
    ∃ t ts, p.tokens = t :: ts ∧ (c ≠ .expr → t.startsAtom = true) := by
  induction p with
  | letIn x b e => exact ⟨_, _, rfl, fun h => absurd rfl h⟩
  | abs word x more e => exact ⟨_, _, rfl, fun h => absurd rfl h⟩
  | app p ih =>
    obtain ⟨t, ts, hp, -⟩ := ih
    exact ⟨t, ts, hp, fun h => absurd rfl h⟩
  | atom p ih =>
    obtain ⟨t, ts, hp, hatom⟩ := ih
    exact ⟨t, ts, hp, fun _ => hatom (by simp)⟩
  | apply f a ihf =>
    obtain ⟨t, ts, hf, hatom⟩ := ihf
    exact ⟨t, ts ++ a.tokens, by simp [tokens, hf], hatom⟩
  | name x => exact ⟨_, _, rfl, fun _ => rfl⟩
  | lit l =>
    refine ⟨_, _, rfl, fun _ => ?_⟩
    cases l with
    | int n => rfl
    | bool b => cases b <;> rfl
  | bracket p => exact ⟨_, _, rfl, fun _ => rfl⟩

theorem Phrase.eof_notMem_tokens {c : Category} (p : Phrase c) : .eof ∉ p.tokens := by
  induction p with
  | letIn x b e ihb ihe => simp [tokens, ihb, ihe]
  | abs word x more e ih => cases word <;> simp [tokens, lambdaToken, ih]
  | app p ih => exact ih
  | atom p ih => exact ih
  | apply f a ihf iha => simp [tokens, ihf, iha]
  | name x => simp [tokens]
  | lit l =>
    cases l with
    | int n => simp [tokens, Literal.token]
    | bool b => cases b <;> simp [tokens, Literal.token]
  | bracket p ih => simp [tokens, ih]

theorem Clause.eof_notMem_tokens (c : Clause) : .eof ∉ c.tokens := by
  cases c with
  | definition x p => simp [tokens, p.eof_notMem_tokens]
  | bare p => exact p.eof_notMem_tokens

theorem Clause.mem_sequence {c : Clause} {cs : List Clause} (hc : c ∈ cs) (ended : Bool) {t : Token}
    (ht : t ∈ c.tokens) : t ∈ sequence ended cs := by
  induction cs with
  | nil => cases hc
  | cons d cs ih =>
    rw [sequence, List.mem_append]
    rcases List.mem_cons.1 hc with rfl | hc
    · exact .inl ht
    · have hmore : cs.isEmpty = false := List.isEmpty_eq_false_iff_exists_mem.2 ⟨c, hc⟩
      exact .inr (by simp [hmore, ih hc])

theorem Clause.exists_tokens_cons (c : Clause) : ∃ t ts, c.tokens = t :: ts := by
  cases c with
  | definition x p => exact ⟨_, _, rfl⟩
  | bare p =>
    obtain ⟨t, ts, hp, -⟩ := p.exists_tokens_cons
    exact ⟨t, ts, hp⟩

theorem Clause.nextToken_ne_eof (c : Clause) {toks rest : List (Located Token)} {ts : List Token}
    (htoks : toks.map Located.val = c.tokens ++ ts) : nextToken (toks ++ rest) ≠ .eof := by
  obtain ⟨t, us, hc⟩ := c.exists_tokens_cons
  rw [hc] at htoks
  obtain ⟨t', toks', rfl, ht', -⟩ := List.map_eq_cons_iff.1 htoks
  intro hnext
  have hnext : t'.val = .eof := hnext
  apply c.eof_notMem_tokens
  simp [hc, ← ht', hnext]

namespace Parser

variable {last : Span} {rest : List (Located Token)}

/-- After `let x = value` it depends on the next token what the statement is. -/
theorem definition_phrase (p : Phrase .expr) {x : String} {t₁ t₂ t₃ : Located Token}
    {toks : List (Located Token)} (h₁ : t₁.val = .kwLet) (h₂ : t₂.val = .ident x)
    (h₃ : t₃.val = .equals) (htoks : toks.map Located.val = p.tokens)
    (hnext : (nextToken rest).startsAtom = false) :
    definition ⟨last, t₁ :: t₂ :: t₃ :: (toks ++ rest)⟩ =
      (if nextToken rest = .kwIn then do
          expect .kwIn
          return ⟨none, .letIn x p.expr (← expression)⟩
        else return ⟨some x, p.expr⟩ : ParseM Statement) ⟨lastSpan t₃.span toks, rest⟩ := by
  rw [definition, bind_of_ok (expect_cons h₁), bind_of_ok (identifier_cons h₂),
    bind_of_ok (expect_cons h₃), bind_of_ok (expression_phrase p htoks hnext), get_bind, peek_val]

theorem anyStatement_let {t : Located Token} (ht : t.val = .kwLet) :
    anyStatement ⟨last, t :: rest⟩ = definition ⟨last, t :: rest⟩ := if_pos ht

/-- A statement that does not begin with `let` is an expression. -/
theorem anyStatement_phrase (p : Phrase .expr) {t : Token} {ts : List Token}
    (hp : p.tokens = t :: ts) (ht : t ≠ .kwLet) {toks : List (Located Token)}
    (htoks : toks.map Located.val = p.tokens) (hnext : (nextToken rest).startsAtom = false) :
    anyStatement ⟨last, toks ++ rest⟩ = (.ok ⟨none, p.expr⟩, ⟨lastSpan last toks, rest⟩) := by
  have hfirst : nextToken (toks ++ rest) = t := by
    obtain ⟨t', toks', rfl, ht', -⟩ := List.map_eq_cons_iff.1 (htoks.trans hp)
    exact ht'
  rw [anyStatement, peek_val, hfirst, if_neg ht, bareExpression,
    bind_of_ok (expression_phrase p htoks hnext)]
  rfl

/-- A statement is read up to a semicolon or the end of the input. -/
theorem anyStatement_clause (c : Clause) {toks : List (Located Token)}
    (htoks : toks.map Located.val = c.tokens)
    (hnext : nextToken rest = .semicolon ∨ nextToken rest = .eof) :
    anyStatement ⟨last, toks ++ rest⟩ = (.ok c.statement, ⟨lastSpan last toks, rest⟩) := by
  have hstop : (nextToken rest).startsAtom = false := by
    rcases hnext with h | h <;> rw [h] <;> rfl
  have hin : nextToken rest ≠ .kwIn := by
    rcases hnext with h | h <;> simp [h]
  cases c with
  | definition x p =>
    obtain ⟨t₁, _, rfl, h₁, htoks⟩ := List.map_eq_cons_iff.1 htoks
    obtain ⟨t₂, _, rfl, h₂, htoks⟩ := List.map_eq_cons_iff.1 htoks
    obtain ⟨t₃, toks, rfl, h₃, htoks⟩ := List.map_eq_cons_iff.1 htoks
    simp only [List.cons_append]
    rw [anyStatement_let h₁, definition_phrase p h₁ h₂ h₃ htoks hstop, if_neg hin]
    rfl
  | bare p =>
    cases p with
    | letIn x b e =>
      obtain ⟨t₁, _, rfl, h₁, htoks⟩ := List.map_eq_cons_iff.1 htoks
      obtain ⟨t₂, _, rfl, h₂, htoks⟩ := List.map_eq_cons_iff.1 htoks
      obtain ⟨t₃, _, rfl, h₃, htoks⟩ := List.map_eq_cons_iff.1 htoks
      obtain ⟨toks, _, rfl, hb, htoks⟩ := List.map_eq_append_iff.1 htoks
      obtain ⟨t₄, toks', rfl, h₄, he⟩ := List.map_eq_cons_iff.1 htoks
      have h₄' : nextToken (t₄ :: (toks' ++ rest)) = .kwIn := h₄
      have hstop₄ : (nextToken (t₄ :: (toks' ++ rest))).startsAtom = false := by
        rw [h₄']
        rfl
      simp only [List.cons_append, List.append_assoc, lastSpan_cons, lastSpan_append]
      rw [anyStatement_let h₁, definition_phrase b h₁ h₂ h₃ hb hstop₄, if_pos h₄',
        bind_of_ok (expect_cons h₄), bind_of_ok (expression_phrase e he hstop)]
      rfl
    | abs word x more e =>
      exact anyStatement_phrase _ rfl (by cases word <;> simp [Phrase.lambdaToken]) htoks hstop
    | app p =>
      obtain ⟨t, ts, hp, hatom⟩ := p.exists_tokens_cons
      have ht : t ≠ .kwLet := by
        rintro rfl
        exact absurd (hatom (by simp)) (by decide)
      exact anyStatement_phrase (.app p) hp ht htoks hstop

theorem statement_clause (last : Span) (c : Clause) {toks : List (Located Token)}
    (htoks : toks.map Located.val = c.tokens)
    (hnext : nextToken rest = .semicolon ∨ nextToken rest = .eof) :
    ∃ s : Located Statement, s.val = c.statement ∧
      statement ⟨last, toks ++ rest⟩ = (.ok s, ⟨lastSpan last toks, rest⟩) := by
  refine ⟨⟨c.statement, (Stream.mk last (toks ++ rest)).peek.span.start, (lastSpan last toks).stop⟩,
    rfl, ?_⟩
  rw [statement, get_bind, bind_of_ok (anyStatement_clause c htoks hnext), get_bind]
  rfl

theorem statements_eq (s : Stream) : statements s =
    if s.peek.val = .eof then (.ok [], s)
    else match statement s with
      | (.error e, s') => (.error e, s')
      | (.ok first, s') =>
        if s'.peek.val = .semicolon then
          match statements s'.advance with
          | (.error e, s'') => (.error e, s'')
          | (.ok more, s'') => (.ok (first :: more), s'')
        else (.ok [first], s') := by
  rw [statements]
  split
  · rfl
  · split <;> rename_i hread <;> simp only [hread]
    split <;> rfl

/-- The statements of a program are read up to the end of the input. -/
theorem statements_sequence (last : Span) (cs : List Clause) (ended : Bool)
    {toks : List (Located Token)}
    (htoks : toks.map Located.val = Clause.sequence ended cs) (hnext : nextToken rest = .eof) :
    ∃ ss, ss.map Located.val = cs.map Clause.statement ∧
      statements ⟨last, toks ++ rest⟩ = (.ok ss, ⟨lastSpan last toks, rest⟩) := by
  induction cs generalizing last toks with
  | nil =>
    obtain rfl : toks = [] := by simpa [Clause.sequence] using htoks
    refine ⟨[], rfl, ?_⟩
    rw [statements_eq, if_pos (by exact hnext)]
    rfl
  | cons c cs ih =>
    rw [Clause.sequence] at htoks
    have hfirst : nextToken (toks ++ rest) ≠ .eof := c.nextToken_ne_eof htoks
    rw [statements_eq, peek_val, if_neg hfirst]
    split at htoks
    · rename_i hlast
      obtain rfl : cs = [] := by simp_all
      obtain ⟨s, hs, hread⟩ := statement_clause last c (by simpa using htoks) (.inr hnext)
      refine ⟨[s], by simp [hs], ?_⟩
      simp [hread, hnext]
    · obtain ⟨toks, _, rfl, hc, htoks⟩ := List.map_eq_append_iff.1 htoks
      obtain ⟨t, toks', rfl, ht, htoks⟩ := List.map_eq_cons_iff.1 htoks
      have hsemi : nextToken (t :: (toks' ++ rest)) = .semicolon := ht
      obtain ⟨s, hs, hread⟩ := statement_clause last c hc (.inl hsemi)
      obtain ⟨ss, hss, hmore⟩ := ih t.span htoks
      refine ⟨s :: ss, by simp [hs, hss], ?_⟩
      rw [List.append_assoc, List.cons_append, hread]
      simp [hsemi, Stream.advance, hmore]

theorem program_sequence (cs : List Clause) (ended : Bool) {toks : List (Located Token)}
    (htoks : toks.map Located.val = Clause.sequence ended cs ++ [.eof]) :
    ∃ p : Program, p.statements.map Located.val = cs.map Clause.statement ∧
      (program (.ofTokens toks)).1 = .ok p := by
  obtain ⟨toks, _, rfl, hcs, hend⟩ := List.map_eq_append_iff.1 htoks
  obtain ⟨t, _, rfl, ht, hend⟩ := List.map_eq_cons_iff.1 hend
  obtain rfl := List.map_eq_nil_iff.1 hend
  have hnext : nextToken [t] = .eof := ht
  obtain ⟨ss, hss, hread⟩ := statements_sequence .nowhere cs ended hcs hnext
  rw [program, Stream.ofTokens, get_bind, bind_of_ok hread, bind_of_ok (expect_cons ht)]
  exact ⟨_, hss, rfl⟩

theorem soleExpression_phrase (p : Phrase .expr) {toks : List (Located Token)}
    (htoks : toks.map Located.val = p.tokens ++ [.eof]) :
    (soleExpression (.ofTokens toks)).1 = .ok p.expr := by
  obtain ⟨toks, _, rfl, hp, hend⟩ := List.map_eq_append_iff.1 htoks
  obtain ⟨t, _, rfl, ht, hend⟩ := List.map_eq_cons_iff.1 hend
  obtain rfl := List.map_eq_nil_iff.1 hend
  have hstop : (nextToken [t]).startsAtom = false := by
    rw [show nextToken [t] = .eof from ht]
    rfl
  rw [soleExpression, Stream.ofTokens, bind_of_ok (expression_phrase p hp hstop),
    bind_of_ok (expect_cons ht)]
  rfl

end Parser

end LetPoly
