import LetPoly.Judgement
import LetPoly.Proofs.Lexing
import LetPoly.Proofs.Recognition

/-!
# Writing programs and reading them back

An expression is written as a phrase that stands for it (`Expr.written`), so reading what was written
gives the expression back, as long as its names and numbers are such that a text can hold them
(`Expr.Printable`). All that is read from a text is like that. So a program that was read can be
written anew, in its own layout, and nothing has changed: not the statements, not the text if it is
written once more, and not the types.
-/

namespace LetPoly

/-! ### Expressions are written as phrases -/

/-- How tokens derive an expression that stands in a slot. After a parameter there may be more of
them, then comes the arrow. -/
def Slot.Written : Slot → List Token → Expr → Prop
  | .top, ts, e => ∃ p : Phrase .expr, p.tokens = ts ∧ p.expr = e
  | .callee, ts, e => ∃ p : Phrase .app, p.tokens = ts ∧ p.expr = e
  | .argument, ts, e => ∃ p : Phrase .atom, p.tokens = ts ∧ p.expr = e
  | .afterParam, ts, e => ∃ (xs : List String) (p : Phrase .expr),
      xs.map .ident ++ .arrow :: p.tokens = ts ∧ xs.foldr .abs p.expr = e

namespace Slot

theorem written_atom (slot : Slot) (p : Phrase .atom) : slot.Written (slot.atom p.tokens) p.expr := by
  cases slot with
  | top => exact ⟨.app (.atom p), rfl, rfl⟩
  | callee => exact ⟨.atom p, rfl, rfl⟩
  | argument => exact ⟨p, rfl, rfl⟩
  | afterParam => exact ⟨[], .app (.atom p), rfl, rfl⟩

theorem written_application (slot : Slot) (p : Phrase .app) :
    slot.Written (slot.application p.tokens) p.expr := by
  cases slot with
  | top => exact ⟨.app p, rfl, rfl⟩
  | callee => exact ⟨p, rfl, rfl⟩
  | argument => exact ⟨.bracket (.app p), rfl, rfl⟩
  | afterParam => exact ⟨[], .app p, rfl, rfl⟩

theorem written_openEnded (slot : Slot) (p : Phrase .expr) :
    slot.Written (slot.openEnded p.tokens) p.expr := by
  cases slot with
  | top => exact ⟨p, rfl, rfl⟩
  | callee => exact ⟨.atom (.bracket p), rfl, rfl⟩
  | argument => exact ⟨.bracket p, rfl, rfl⟩
  | afterParam => exact ⟨[], p, rfl, rfl⟩

end Slot

/-- **An expression is written as a phrase that stands for it**, wherever it is. -/
theorem Expr.written (e : Expr) (slot : Slot) : slot.Written (e.spell slot) e := by
  induction e generalizing slot with
  | var x => cases slot <;> exact Slot.written_atom _ (.name x)
  | lit l => cases slot <;> exact Slot.written_atom _ (.lit l)
  | app f a ihf iha =>
    obtain ⟨f', hf, rfl⟩ := ihf .callee
    obtain ⟨a', ha, rfl⟩ := iha .argument
    have h := slot.written_application (.apply f' a')
    rw [Phrase.tokens, hf, ha] at h
    cases slot <;> exact h
  | abs x e ih =>
    obtain ⟨more, p, hts, rfl⟩ := ih .afterParam
    have h := slot.written_openEnded (.abs false x more p)
    rw [Phrase.tokens, hts] at h
    cases slot with
    -- the parameters of abstractions in a row are collected
    | afterParam => exact ⟨x :: more, p, by rw [spell, ← hts]; rfl, rfl⟩
    | top | callee | argument => exact h
  | letIn x b e ihb ihe =>
    obtain ⟨b', hb, rfl⟩ := ihb .top
    obtain ⟨e', he, rfl⟩ := ihe .top
    have h := slot.written_openEnded (.letIn x b' e')
    rw [Phrase.tokens, hb, he] at h
    cases slot <;> exact h

theorem Statement.exists_clause (s : Statement) :
    ∃ c : Clause, c.tokens = s.spell ∧ c.statement = s := by
  obtain ⟨p, hp, he⟩ := s.expr.written .top
  obtain ⟨name, e⟩ := s
  cases name with
  | none => exact ⟨.bare p, hp, congrArg (Statement.mk none) he⟩
  | some x =>
    exact ⟨.definition x p, by rw [Clause.tokens, hp]; rfl, congrArg (Statement.mk (some x)) he⟩

/-! ### What a text can hold -/

/-- All names are names in a text, and there are no negative numbers. -/
def Expr.Printable : Expr → Prop
  | .var x => Lexer.IsName x
  | .lit (.int n) => 0 ≤ n.toInt
  | .lit (.bool _) => True
  | .app f a => f.Printable ∧ a.Printable
  | .abs x e => Lexer.IsName x ∧ e.Printable
  | .letIn x b e => Lexer.IsName x ∧ b.Printable ∧ e.Printable

instance Expr.decidablePrintable : (e : Expr) → Decidable e.Printable
  | .var x => inferInstanceAs (Decidable (Lexer.IsName x))
  | .lit (.int n) => inferInstanceAs (Decidable (0 ≤ n.toInt))
  | .lit (.bool _) => .isTrue trivial
  | .app f a =>
    have := f.decidablePrintable
    have := a.decidablePrintable
    inferInstanceAs (Decidable (f.Printable ∧ a.Printable))
  | .abs x e =>
    have := e.decidablePrintable
    inferInstanceAs (Decidable (Lexer.IsName x ∧ e.Printable))
  | .letIn x b e =>
    have := b.decidablePrintable
    have := e.decidablePrintable
    inferInstanceAs (Decidable (Lexer.IsName x ∧ b.Printable ∧ e.Printable))

def Statement.Printable (s : Statement) : Prop := (∀ x ∈ s.name, Lexer.IsName x) ∧ s.expr.Printable

theorem Expr.printable_foldr_abs (xs : List String) (e : Expr) :
    (xs.foldr .abs e).Printable ↔ (∀ x ∈ xs, Lexer.IsName x) ∧ e.Printable := by
  induction xs with
  | nil => simp
  | cons x xs ih => simp [Printable, ih, and_assoc]

/-- **A phrase can be written in a text just if what it stands for can.** -/
theorem Phrase.writable_iff {c : Category} (p : Phrase c) :
    (∀ t ∈ p.tokens, t.Writable) ↔ p.expr.Printable := by
  induction p with
  | letIn x b e ihb ihe =>
    simp only [tokens, List.forall_mem_cons, List.forall_mem_append, ihb, ihe]
    simp [expr, Expr.Printable, Token.Writable]
  | abs word x more e ih =>
    have hword : (lambdaToken word).Writable := by cases word <;> trivial
    simp only [tokens, List.forall_mem_cons, List.forall_mem_append, List.forall_mem_map, ih, hword]
    simp [expr, Expr.Printable, Expr.printable_foldr_abs, Token.Writable]
  | app p ih => exact ih
  | atom p ih => exact ih
  | apply f a ihf iha => simp only [tokens, List.forall_mem_append, ihf, iha, expr, Expr.Printable]
  | name x => simp [tokens, expr, Expr.Printable, Token.Writable]
  | lit l =>
    cases l with
    | int n => simp [tokens, expr, Expr.Printable, Literal.token, Token.Writable]
    | bool b => cases b <;> simp [tokens, expr, Expr.Printable, Literal.token, Token.Writable]
  | bracket p ih =>
    simp only [tokens, List.forall_mem_cons, List.forall_mem_append, ih]
    simp [expr, Token.Writable]

theorem Clause.writable_iff (c : Clause) :
    (∀ t ∈ c.tokens, t.Writable) ↔ c.statement.Printable := by
  cases c with
  | definition x p =>
    simp only [tokens, List.forall_mem_cons, p.writable_iff]
    simp [statement, Statement.Printable, Token.Writable]
  | bare p => simp [tokens, statement, Statement.Printable, p.writable_iff]

/-! ### Expressions are read back -/

theorem parse_eq_ok_iff {α : Type} {reader : ParseM α} {source : String} {a : α} :
    parse reader source = .ok a ↔
      ∃ toks, tokenize source = .ok toks ∧ (reader (.ofTokens toks)).1 = .ok a := by
  unfold parse tokensOf
  cases tokenize source with
  | error f => simp [Except.mapError, bind, Except.bind]
  | ok toks =>
    cases h : (reader (.ofTokens toks)).1 <;> simp [Except.mapError, bind, Except.bind, h]

/-- **What an expression is printed as is read as the same expression.** -/
theorem Expr.parse_print {e : Expr} (h : e.Printable) : Expr.parse e.print = .ok e := by
  obtain ⟨p, hp, rfl⟩ := e.written .top
  have hwritable : ∀ t ∈ p.expr.spell .top, t.Writable := by
    rw [← hp]
    exact p.writable_iff.2 h
  obtain ⟨toks, htokens, hvals⟩ := tokenize_line hwritable
  rw [← hp] at hvals
  exact parse_eq_ok_iff.2 ⟨toks, htokens, Parser.soleExpression_phrase p hvals⟩

/-- Applications to the right and to the left, abstractions in a row and apart, and a `let` that is
a function. -/
theorem Expr.parse_print_nested : ∃ e : Expr,
    e.print = "\\f x' -> f (f x') ((let _y = 7 in \\z -> _y) true)" ∧ e.Printable ∧
      Expr.parse e.print = .ok e := by
  refine ⟨.abs "f" (.abs "x'" (.app (.app (.var "f") (.app (.var "f") (.var "x'")))
    (.app (.letIn "_y" (.lit (.int 7)) (.abs "z" (.var "_y"))) (.lit (.bool true))))), ?_⟩
  exact ⟨by decide +kernel, by decide +kernel, Expr.parse_print (by decide +kernel)⟩

/-! ### Programs are read back -/

/-- Statements are written as a program, with a semicolon at the end too. -/
theorem Statement.exists_sequence (ss : List Statement) :
    ∃ cs, cs.map Clause.statement = ss ∧
      Clause.sequence true cs = (ss.map fun s => s.spell ++ [.semicolon]).flatten := by
  induction ss with
  | nil => exact ⟨[], rfl, rfl⟩
  | cons s ss ih =>
    obtain ⟨c, hc, rfl⟩ := s.exists_clause
    obtain ⟨cs, rfl, hcs⟩ := ih
    exact ⟨c :: cs, rfl, by simp [Clause.sequence, hc, hcs]⟩

theorem Statement.writable_spell {s : Statement} (h : s.Printable) : ∀ t ∈ s.spell, t.Writable := by
  obtain ⟨c, hc, rfl⟩ := s.exists_clause
  rw [← hc]
  exact c.writable_iff.2 h

theorem Statement.parse_printAll {ss : List Statement} (h : ∀ s ∈ ss, s.Printable) :
    ∃ q, Program.parse (printAll ss) = .ok q ∧ q.statements.map Located.val = ss := by
  have hlines : ∀ ts ∈ ss.map fun s => s.spell ++ [.semicolon], ∀ t ∈ ts, t.Writable := by
    rw [List.forall_mem_map]
    intro s hs
    rw [List.forall_mem_append]
    exact ⟨writable_spell (h s hs), by simp [Token.Writable]⟩
  obtain ⟨toks, htokens, hvals⟩ := tokenize_lines hlines
  obtain ⟨cs, hcs, hseq⟩ := exists_sequence ss
  rw [← hseq] at hvals
  obtain ⟨q, hq, hread⟩ := Parser.program_sequence cs true hvals
  refine ⟨q, parse_eq_ok_iff.2 ⟨toks, ?_, hread⟩, hq.trans hcs⟩
  rw [← htokens, printAll, List.map_map]
  rfl

/-- **All that is read from a text can be printed.** -/
theorem Program.printable_of_parse {source : String} {p : Program}
    (h : Program.parse source = .ok p) : ∀ s ∈ p.statements.map Located.val, s.Printable := by
  obtain ⟨toks, htokens, hread⟩ := parse_eq_ok_iff.1 h
  obtain ⟨ts, hvals, hts⟩ := writable_of_tokenize htokens
  obtain ⟨used, rest, rfl, -, ended, cs, hcs, hused⟩ :=
    Parser.program_recognizes (Prod.ext hread rfl)
  rw [hcs, List.forall_mem_map]
  intro c hc
  refine c.writable_iff.1 fun t ht => hts t ?_
  have hmem : t ∈ ts ++ [.eof] := by
    have hseq := c.mem_sequence hc ended ht
    rw [← hvals, List.map_append, List.mem_append]
    rcases hused with hused | hused <;> simp [hused, hseq]
  rcases List.mem_append.1 hmem with hmem | hmem
  · exact hmem
  · rw [List.mem_singleton.1 hmem] at ht
    exact absurd ht c.eof_notMem_tokens

/-! ### Places do not matter -/

theorem check_result_congr (policy : LetPolicy) (env : Env) {ss ss' : List (Located Statement)}
    (h : ss.map Located.val = ss'.map Located.val) :
    (check policy env ss).result.mapError Located.val =
      (check policy env ss').result.mapError Located.val := by
  induction ss generalizing env ss' with
  | nil =>
    obtain rfl := List.map_eq_nil_iff.1 h.symm
    rfl
  | cons s ss ih =>
    obtain ⟨s', ss', rfl, hs, hss⟩ := List.map_eq_cons_iff.1 h.symm
    rw [result_check_cons, result_check_cons, hs]
    cases (inferType policy env s.val.expr).result with
    | error e => rfl
    | ok t =>
      have hpush : ∀ (r : Except Error (List Judgement)) (f : List Judgement → List Judgement),
          (r.map f).mapError Located.val = (r.mapError Located.val).map f := by
        intro r f
        cases r <;> rfl
      simp only [hpush, ih _ hss.symm]

/-- **Writing a program anew changes nothing.** -/
theorem Program.reformat_unchanged {source : String} {p : Program}
    (h : Program.parse source = .ok p) :
    ∃ q, Program.parse p.print = .ok q ∧
      q.statements.map Located.val = p.statements.map Located.val ∧ q.print = p.print ∧
      ∀ policy, (checkSource policy p.print).result.mapError Located.val =
        (checkSource policy source).result.mapError Located.val := by
  obtain ⟨q, hq, hsame⟩ := Statement.parse_printAll (Program.printable_of_parse h)
  refine ⟨q, hq, hsame, by rw [print, print, hsame], fun policy => ?_⟩
  have hq : Program.parse p.print = .ok q := hq
  rw [checkSource, checkSource, hq, h]
  exact check_result_congr policy .primitives hsame

/-- A comment goes, and so do brackets that are not needed; `fun` and a sequence of lambdas become one
lambda, and there is a line for each statement. -/
theorem Program.reformat_unchanged_const : ∃ p : Program,
    Program.parse "let k = (fun x -> λy -> (x)); (k 1) -- constant\n (k true)" = .ok p ∧
      p.print = "let k = \\x y -> x;\nk 1 (k true);\n" ∧
      ∃ q, Program.parse p.print = .ok q ∧
        q.statements.map Located.val = p.statements.map Located.val ∧ q.print = p.print ∧
        ∀ policy, (checkSource policy p.print).result.mapError Located.val =
          (checkSource policy
            "let k = (fun x -> λy -> (x)); (k 1) -- constant\n (k true)").result.mapError Located.val := by
  let use : Expr := .app (.app (.var "k") (.lit (.int 1))) (.app (.var "k") (.lit (.bool true)))
  let p : Program := ⟨[⟨⟨some "k", .abs "x" (.abs "y" (.var "x"))⟩, 0, 29⟩, ⟨⟨none, use⟩, 31, 58⟩], 0, 58⟩
  have hsome : (Program.parse "let k = (fun x -> λy -> (x)); (k 1) -- constant\n (k true)").toOption =
      some p := by
    decide +kernel
  have h : Program.parse "let k = (fun x -> λy -> (x)); (k 1) -- constant\n (k true)" = .ok p := by
    generalize Program.parse _ = r at hsome
    cases r with
    | error e => cases hsome
    | ok q => exact congrArg Except.ok (Option.some.inj hsome)
  exact ⟨p, h, by decide +kernel, Program.reformat_unchanged h⟩

end LetPoly
