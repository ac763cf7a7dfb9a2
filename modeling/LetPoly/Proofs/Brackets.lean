import LetPoly.Proofs.RoundTrip
import LetPoly.Proofs.Unambiguity

/-!
# No bracket is written that could be left out

An expression is printed with brackets where the grammar asks for them, and nowhere else. The grammar
has three kinds of phrases, and printing has a slot for each. In every slot an expression is written
with as few brackets as any phrase of that kind for the same expression has (`Phrase.brackets_le`).

A phrase may be of a stricter kind than its place asks for, but this does not pay: a stricter slot never
saves brackets (`Expr.brackets_top_le`, `Expr.brackets_callee_le`), and a pair around the whole is the
most that it can cost (`Expr.brackets_argument_le`).
-/

namespace LetPoly

/-- How many brackets are opened. -/
def Token.brackets (ts : List Token) : Nat := ts.count .lparen

@[simp] theorem Token.brackets_nil : brackets [] = 0 := rfl

theorem Token.brackets_append (ts us : List Token) :
    brackets (ts ++ us) = brackets ts + brackets us :=
  List.count_append

theorem Token.brackets_cons (t : Token) (ts : List Token) :
    brackets (t :: ts) = brackets ts + if t = .lparen then 1 else 0 := by
  simp [brackets, List.count_cons]

theorem Token.brackets_idents (xs : List String) : brackets (xs.map .ident) = 0 := by
  rw [brackets, List.count_eq_zero]
  simp

/-! ### Slots -/

namespace Expr

/-- The brackets of an expression that is written in a slot. -/
def brackets (slot : Slot) (e : Expr) : Nat := Token.brackets (e.spell slot)

theorem brackets_var (slot : Slot) (x : String) : (var x).brackets slot = 0 := by
  cases slot <;> rfl

theorem brackets_lit (slot : Slot) (l : Literal) : (lit l).brackets slot = 0 := by
  have htoken : Token.brackets [l.token] = 0 := by
    rcases l with n | ⟨_ | _⟩ <;> rfl
  cases slot <;> simpa [brackets, spell, Slot.atom, Token.brackets_cons] using htoken

theorem brackets_app (slot : Slot) (f a : Expr) : (app f a).brackets slot =
    f.brackets .callee + a.brackets .argument + if slot = .argument then 1 else 0 := by
  cases slot <;> simp [brackets, spell, Slot.application, Slot.bracket, Token.brackets_append,
    Token.brackets_cons]

/-- After a parameter an expression has the brackets that it has alone. -/
theorem brackets_afterParam (e : Expr) : e.brackets .afterParam = e.brackets .top := by
  cases e with
  | var x => rfl
  | lit l => rw [brackets_lit, brackets_lit]
  | app f a => simp [brackets_app]
  | abs x e => simp [brackets, spell, Slot.openEnded, Token.brackets_cons]
  | letIn x b e => simp [brackets, spell, Slot.openEnded, Token.brackets_cons]

theorem brackets_abs (slot : Slot) (x : String) (e : Expr) : (abs x e).brackets slot =
    e.brackets .top + if slot = .callee ∨ slot = .argument then 1 else 0 := by
  rw [← brackets_afterParam e]
  cases slot <;> simp [brackets, spell, Slot.openEnded, Slot.bracket, Token.brackets_append,
    Token.brackets_cons]

theorem brackets_letIn (slot : Slot) (x : String) (b e : Expr) : (letIn x b e).brackets slot =
    b.brackets .top + e.brackets .top + if slot = .callee ∨ slot = .argument then 1 else 0 := by
  cases slot <;> simp [brackets, spell, Slot.openEnded, Slot.bracket, Token.brackets_append,
    Token.brackets_cons]

/-- Abstractions in a row need no brackets between them. -/
theorem brackets_foldr_abs (xs : List String) (e : Expr) :
    (xs.foldr abs e).brackets .top = e.brackets .top := by
  induction xs with
  | nil => rfl
  | cons x xs ih => simp [brackets_abs, ih]

theorem brackets_top_le (e : Expr) : e.brackets .top ≤ e.brackets .callee := by
  cases e <;> simp [brackets_var, brackets_lit, brackets_app, brackets_abs, brackets_letIn]

theorem brackets_callee_le (e : Expr) : e.brackets .callee ≤ e.brackets .argument := by
  cases e <;> simp [brackets_var, brackets_lit, brackets_app, brackets_abs, brackets_letIn]

/-- Brackets around the whole make an argument of any expression. -/
theorem brackets_argument_le (e : Expr) : e.brackets .argument ≤ e.brackets .top + 1 := by
  cases e <;> simp [brackets_var, brackets_lit, brackets_app, brackets_abs, brackets_letIn]

end Expr

/-! ### Phrases -/

/-- The slot for a kind of phrase. -/
def Category.slot : Category → Slot
  | .expr => .top
  | .app => .callee
  | .atom => .argument

/-- **No phrase for an expression has fewer brackets** than the expression has in the slot for such
phrases. -/
theorem Phrase.brackets_le {c : Category} (p : Phrase c) :
    p.expr.brackets c.slot ≤ Token.brackets p.tokens := by
  induction p with
  | letIn x b e ihb ihe =>
    have hphrase : Token.brackets (letIn x b e).tokens =
        Token.brackets b.tokens + Token.brackets e.tokens := by
      simp [tokens, Token.brackets_cons, Token.brackets_append]
    have hexpr : (letIn x b e).expr.brackets .top = b.expr.brackets .top + e.expr.brackets .top := by
      simp [expr, Expr.brackets_letIn]
    exact hphrase ▸ hexpr ▸ Nat.add_le_add ihb ihe
  | abs word x more e ih =>
    have hphrase : Token.brackets (abs word x more e).tokens = Token.brackets e.tokens := by
      cases word <;>
        simp [tokens, lambdaToken, Token.brackets_cons, Token.brackets_append, Token.brackets_idents]
    have hexpr : (abs word x more e).expr.brackets .top = e.expr.brackets .top := by
      simp [expr, Expr.brackets_abs, Expr.brackets_foldr_abs]
    exact hphrase ▸ hexpr ▸ ih
  | app p ih => exact Nat.le_trans (Expr.brackets_top_le _) ih
  | atom p ih => exact Nat.le_trans (Expr.brackets_callee_le _) ih
  | apply f a ihf iha =>
    have hexpr : (apply f a).expr.brackets .callee =
        f.expr.brackets .callee + a.expr.brackets .argument := by
      simp [expr, Expr.brackets_app]
    exact Token.brackets_append f.tokens a.tokens ▸ hexpr ▸ Nat.add_le_add ihf iha
  | name x => simp [expr, Expr.brackets_var]
  | lit l => simp [expr, Expr.brackets_lit]
  | bracket p ih =>
    have hphrase : Token.brackets (bracket p).tokens = Token.brackets p.tokens + 1 := by
      simp [tokens, Token.brackets_cons, Token.brackets_append]
    rw [hphrase]
    exact Nat.le_trans (Expr.brackets_argument_le _) (Nat.add_le_add_right ih 1)

/-! ### Texts -/

/-- The tokens of a text that is read as an expression begin with a phrase for it. -/
theorem Expr.exists_phrase_of_parse {source : String} {e : Expr} (h : Expr.parse source = .ok e) :
    ∃ toks, tokenize source = .ok toks ∧
      ∃ p : Phrase .expr, p.expr = e ∧ p.tokens <+: toks.map Located.val := by
  obtain ⟨toks, htokens, hread⟩ := parse_eq_ok_iff.1 h
  obtain ⟨e', s, hexpr, hend⟩ := Parser.exists_of_bind_ok hread
  obtain ⟨u, s', -, hend⟩ := Parser.exists_of_bind_ok hend
  cases hend
  obtain ⟨used, rest, rfl, -, p, hp, hused⟩ := Parser.expression_recognizes hexpr
  exact ⟨_, htokens, p, hp, rest.map Located.val, by rw [← hused, List.map_append]⟩

/-- **Printed expressions have the fewest brackets.** An expression with names and numbers that a text
can hold is printed as a text that is read as the expression, and no text that is read as this expression
has fewer opening brackets among its tokens. -/
theorem Expr.print_fewest_brackets (e : Expr) (he : e.Printable) :
    ∃ toks, tokenize e.print = .ok toks ∧ Expr.parse e.print = .ok e ∧
      ∀ source, Expr.parse source = .ok e → ∃ toks', tokenize source = .ok toks' ∧
        Token.brackets (toks.map Located.val) ≤ Token.brackets (toks'.map Located.val) := by
  obtain ⟨p, hp, rfl⟩ := e.written .top
  obtain ⟨toks, htokens, hvals⟩ := tokenize_line (p.writable_iff.2 he)
  have htokens : tokenize p.expr.print = .ok toks := by
    rw [← htokens, hp]
    rfl
  refine ⟨toks, htokens, ?_, fun source hsource => ?_⟩
  · exact parse_eq_ok_iff.2 ⟨toks, htokens, Parser.soleExpression_phrase p hvals⟩
  · obtain ⟨toks', htokens', q, hq, hprefix⟩ := exists_phrase_of_parse hsource
    refine ⟨toks', htokens', ?_⟩
    calc Token.brackets (toks.map Located.val)
        = p.expr.brackets .top := by
          rw [hvals, Token.brackets_append, hp]
          rfl
      _ ≤ Token.brackets q.tokens := hq ▸ q.brackets_le
      _ ≤ Token.brackets (toks'.map Located.val) := hprefix.sublist.count_le Token.lparen

/-- Brackets around an application that is an argument, a `let` that is applied and an abstraction that
is an argument. -/
theorem Expr.print_fewest_brackets_nested :
    let e : Expr := .abs "f" (.app (.app (.var "f") (.app (.var "f") (.lit (.int 1))))
      (.app (.letIn "g" (.var "f") (.var "g")) (.abs "x" (.var "x"))))
    e.print = "\\f -> f (f 1) ((let g = f in g) (\\x -> x))" ∧ e.Printable ∧
      ∃ toks, tokenize e.print = .ok toks ∧ Expr.parse e.print = .ok e ∧
        ∀ source, Expr.parse source = .ok e → ∃ toks', tokenize source = .ok toks' ∧
          Token.brackets (toks.map Located.val) ≤ Token.brackets (toks'.map Located.val) := by
  intro e
  have he : e.Printable := by decide +kernel
  exact ⟨by decide +kernel, he, Expr.print_fewest_brackets e he⟩

end LetPoly
