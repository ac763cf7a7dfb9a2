import LetPoly.Proofs.Recognition
import Mathlib.Data.List.Basic

/-!
# The grammar is unambiguous, and read exactly

No two phrases have the same tokens. More is true: when tokens begin with a phrase and what follows
cannot be one more argument, both the phrase and what follows are determined (`Phrase.splits`). The
last condition is what ends an application, `atom atom*`, which otherwise could stop after any of
its atoms. A definition `let x = value` and an expression `let x = value in body` begin alike, and
what follows `value` tells them apart (`Clause.eq_of_append_eq`).

So tokens derive a program in at most one way (`Script.eq_of_tokens_eq`). Readers accept what is
derived, and nothing else, and answer with what it stands for.
-/

namespace LetPoly

/-- What follows an expression does not begin like one more argument. -/
def Token.Ends (us : List Token) : Prop := ∀ t ∈ us.head?, t.startsAtom = false

@[simp] theorem Token.ends_nil : Token.Ends [] := by simp [Token.Ends]

@[simp] theorem Token.ends_cons {t : Token} {us : List Token} :
    Token.Ends (t :: us) ↔ t.startsAtom = false := by simp [Token.Ends]

/-- The token of a literal is read as that literal. -/
theorem Literal.atom?_token (l : Literal) : l.token.atom? = some (.lit l) := by
  rcases l with n | ⟨_ | _⟩ <;> rfl

theorem Literal.token_inj {l l' : Literal} (h : l.token = l'.token) : l = l' := by
  have hatom := congrArg Token.atom? h
  rw [atom?_token, atom?_token] at hatom
  exact Expr.lit.inj (Option.some.inj hatom)

theorem Literal.token_ne {l : Literal} {t : Token} (ht : t.atom? ≠ some (.lit l)) : l.token ≠ t := by
  rintro rfl
  exact ht l.atom?_token

namespace Phrase

/-! ### Applications -/

/-- An application with more arguments. -/
def applied (f : Phrase .app) (args : List (Phrase .atom)) : Phrase .app := args.foldl .apply f

theorem tokens_applied (f : Phrase .app) (args : List (Phrase .atom)) :
    (f.applied args).tokens = f.tokens ++ args.flatMap tokens := by
  induction args generalizing f with
  | nil => simp [applied]
  | cons a args ih =>
    have h := ih (.apply f a)
    rw [tokens, List.append_assoc] at h
    exact h

/-- An application is an atom and arguments, `atom atom*`. -/
theorem exists_applied :
    (p : Phrase .app) → ∃ (a : Phrase .atom) (args : List (Phrase .atom)), p = (atom a).applied args
  | .atom a => ⟨a, [], rfl⟩
  | .apply f b => by
    obtain ⟨a, args, rfl⟩ := f.exists_applied
    exact ⟨a, args ++ [b], by simp [applied]⟩

/-- With an argument more, what an application leaves begins an atom. -/
theorem not_ends_args {a : Phrase .atom} {args : List (Phrase .atom)} {us : List Token} :
    ¬ Token.Ends ((a :: args).flatMap tokens ++ us) := by
  obtain ⟨t, ts, ha, hatom⟩ := a.exists_tokens_cons
  simp [ha, hatom]

theorem tokens_app_ne {p : Phrase .app} {t : Token} {us vs : List Token}
    (ht : t.startsAtom = false) : p.tokens ++ us ≠ t :: vs := by
  obtain ⟨t', ts, hp, hatom⟩ := p.exists_tokens_cons
  have ht' := hatom (by simp)
  rintro heq
  rw [hp] at heq
  obtain ⟨rfl, -⟩ := List.cons.inj heq
  exact Bool.noConfusion (ht.symm.trans ht')

/-- What begins with `let` is written `let x = b in e`. -/
theorem exists_letIn {q : Phrase .expr} {us vs : List Token} (h : q.tokens ++ us = .kwLet :: vs) :
    ∃ x b e, q = letIn x b e ∧
      vs = .ident x :: .equals :: (b.tokens ++ .kwIn :: (e.tokens ++ us)) := by
  cases q with
  | letIn x b e => exact ⟨x, b, e, rfl, by simpa [tokens] using h.symm⟩
  | abs word x more e => cases word <;> cases h
  | app p => exact absurd h (tokens_app_ne rfl)

/-! ### Phrases -/

theorem lambdaToken_startsAtom : ∀ word, (lambdaToken word).startsAtom = false := by decide

theorem lambdaToken_inj : ∀ {word word'}, lambdaToken word = lambdaToken word' → word = word' := by
  decide

theorem params_inj {xs ys : List String} {us vs : List Token}
    (h : xs.map Token.ident ++ .arrow :: us = ys.map Token.ident ++ .arrow :: vs) :
    xs = ys ∧ us = vs := by
  induction xs generalizing ys with
  | nil =>
    cases ys with
    | nil => exact ⟨rfl, by simpa using h⟩
    | cons y ys => simp at h
  | cons x xs ih =>
    cases ys with
    | nil => simp at h
    | cons y ys =>
      simp only [List.map_cons, List.cons_append, List.cons.injEq, Token.ident.injEq] at h
      obtain ⟨rfl, h⟩ := h
      obtain ⟨rfl, rfl⟩ := ih h
      exact ⟨rfl, rfl⟩

/-- How far tokens determine a phrase that they begin with. An expression and what follows it are
determined if an expression ends there. Of two applications one may go on where the other ends. -/
def Splits : {c : Category} → Phrase c → Prop
  | .expr, p => ∀ (q : Phrase .expr) (us vs : List Token), p.tokens ++ us = q.tokens ++ vs →
      Token.Ends us → Token.Ends vs → p = q ∧ us = vs
  | .app, p => ∀ (q : Phrase .app) (us vs : List Token), p.tokens ++ us = q.tokens ++ vs →
      ∃ args : List (Phrase .atom), (q = p.applied args ∧ us = args.flatMap tokens ++ vs) ∨
        (p = q.applied args ∧ vs = args.flatMap tokens ++ us)
  | .atom, p => ∀ (q : Phrase .atom) (us vs : List Token), p.tokens ++ us = q.tokens ++ vs →
      p = q ∧ us = vs

theorem splits_letIn {x : String} {b e : Phrase .expr} (hb : b.Splits) (he : e.Splits) :
    (letIn x b e).Splits := by
  intro q us vs h hus hvs
  obtain ⟨y, b', e', rfl, hrest⟩ := exists_letIn h.symm
  simp only [List.append_eq, List.cons_append, List.append_assoc, List.cons.injEq,
    Token.ident.injEq, true_and] at hrest
  obtain ⟨rfl, hbound⟩ := hrest
  obtain ⟨rfl, hbody⟩ := hb b' _ _ hbound (Token.ends_cons.2 rfl) (Token.ends_cons.2 rfl)
  obtain ⟨rfl, rfl⟩ := he e' us vs (List.cons.inj hbody).2 hus hvs
  exact ⟨rfl, rfl⟩

theorem splits_abs {word : Bool} {x : String} {more : List String} {e : Phrase .expr}
    (he : e.Splits) : (abs word x more e).Splits := by
  intro q us vs h hus hvs
  cases q with
  | letIn y b' e' => cases word <;> cases h
  | abs word' y more' e' =>
    simp only [tokens, List.cons_append, List.append_assoc, List.cons.injEq,
      Token.ident.injEq] at h
    obtain ⟨hword, rfl, h⟩ := h
    obtain rfl := lambdaToken_inj hword
    obtain ⟨rfl, hbody⟩ := params_inj h
    obtain ⟨rfl, rfl⟩ := he e' us vs hbody hus hvs
    exact ⟨rfl, rfl⟩
  | app p => exact absurd h.symm (tokens_app_ne (lambdaToken_startsAtom word))

theorem splits_app {p : Phrase .app} (hp : p.Splits) : (app p).Splits := by
  intro q us vs h hus hvs
  cases q with
  | letIn y b e => exact absurd h (tokens_app_ne rfl)
  | abs word y more e => exact absurd h (tokens_app_ne (lambdaToken_startsAtom word))
  | app q =>
    -- neither goes on where the other ends
    obtain ⟨args, ⟨rfl, rfl⟩ | ⟨rfl, rfl⟩⟩ := hp q us vs h
    · cases args with
      | nil => exact ⟨rfl, rfl⟩
      | cons a args => exact absurd hus not_ends_args
    · cases args with
      | nil => exact ⟨rfl, rfl⟩
      | cons a args => exact absurd hvs not_ends_args

theorem splits_atom {a : Phrase .atom} (ha : a.Splits) : (atom a).Splits := by
  intro q us vs h
  obtain ⟨b, args, rfl⟩ := q.exists_applied
  rw [tokens_applied, List.append_assoc] at h
  obtain ⟨rfl, rfl⟩ := ha b _ _ h
  exact ⟨args, .inl ⟨rfl, rfl⟩⟩

theorem splits_apply {f : Phrase .app} {a : Phrase .atom} (hf : f.Splits) (ha : a.Splits) :
    (apply f a).Splits := by
  intro q us vs h
  rw [tokens, List.append_assoc] at h
  obtain ⟨args, ⟨rfl, hus⟩ | ⟨rfl, rfl⟩⟩ := hf q _ vs h
  · cases args with
    | nil => exact ⟨[a], .inr ⟨rfl, by simpa using hus.symm⟩⟩
    | cons b args =>
      rw [List.flatMap_cons, List.append_assoc] at hus
      obtain ⟨rfl, rfl⟩ := ha b _ _ hus
      exact ⟨args, .inl ⟨rfl, rfl⟩⟩
  · exact ⟨args ++ [a], .inr ⟨by simp [applied], by simp⟩⟩

theorem splits_name (x : String) : (name x).Splits := by
  intro q us vs h
  cases q with
  | name y =>
    cases h
    exact ⟨rfl, rfl⟩
  | lit l => exact absurd (List.cons.inj h).1.symm (Literal.token_ne nofun)
  | bracket p => cases h

theorem splits_lit (l : Literal) : (lit l).Splits := by
  intro q us vs h
  cases q with
  | name y => exact absurd (List.cons.inj h).1 (Literal.token_ne nofun)
  | lit l' =>
    obtain ⟨hl, rfl⟩ := List.cons.inj h
    obtain rfl := Literal.token_inj hl
    exact ⟨rfl, rfl⟩
  | bracket p => exact absurd (List.cons.inj h).1 (Literal.token_ne nofun)

theorem splits_bracket {p : Phrase .expr} (hp : p.Splits) : (bracket p).Splits := by
  intro q us vs h
  cases q with
  | name y => cases h
  | lit l => exact absurd (List.cons.inj h).1.symm (Literal.token_ne nofun)
  | bracket q =>
    simp only [tokens, List.cons_append, List.append_assoc, List.cons.injEq, true_and] at h
    obtain ⟨rfl, hrest⟩ := hp q _ _ h (Token.ends_cons.2 rfl) (Token.ends_cons.2 rfl)
    exact ⟨rfl, (List.cons.inj hrest).2⟩

/-- **Tokens determine the phrase that they begin with**, as far as its kind allows. -/
theorem splits {c : Category} (p : Phrase c) : p.Splits := by
  induction p with
  | letIn x b e ihb ihe => exact splits_letIn ihb ihe
  | abs word x more e ih => exact splits_abs ih
  | app p ih => exact splits_app ih
  | atom p ih => exact splits_atom ih
  | apply f a ihf iha => exact splits_apply ihf iha
  | name x => exact splits_name x
  | lit l => exact splits_lit l
  | bracket p ih => exact splits_bracket ih

/-- No two expressions are written with the same tokens. -/
theorem eq_of_tokens_eq {p q : Phrase .expr} (h : p.tokens = q.tokens) : p = q :=
  (p.splits q [] [] (by simpa using h) (by simp) (by simp)).1

end Phrase

/-! ### Statements -/

namespace Clause

/-- What follows a statement is a semicolon, or nothing. -/
def Over (us : List Token) : Prop := ∀ t ∈ us.head?, t = .semicolon

@[simp] theorem over_nil : Over [] := by simp [Over]

@[simp] theorem over_cons {t : Token} {us : List Token} : Over (t :: us) ↔ t = .semicolon := by
  simp [Over]

theorem Over.ends {us : List Token} (h : Over us) : Token.Ends us := by
  intro t ht
  rw [h t ht]
  rfl

/-- Of what begins with `let x = value`, the next token tells what it is: a definition, unless `in`
follows. -/
theorem name_eq_of_tokens_eq {c : Clause} {x : String} {b : Phrase .expr} {us : List Token}
    (h : c.tokens = .kwLet :: .ident x :: .equals :: (b.tokens ++ us)) (hus : Token.Ends us) :
    c.statement.name = if us.head? = some .kwIn then none else some x := by
  cases c with
  | definition y p =>
    simp only [tokens, List.cons.injEq, Token.ident.injEq, true_and] at h
    obtain ⟨rfl, h⟩ := h
    obtain ⟨-, rfl⟩ := p.splits b [] us (by simpa using h) Token.ends_nil hus
    rfl
  | bare p =>
    obtain ⟨y, b', e, rfl, hrest⟩ := Phrase.exists_letIn ((List.append_nil _).trans h)
    simp only [List.cons.injEq, true_and] at hrest
    obtain ⟨-, rfl⟩ := b.splits b' us _ hrest.2 hus (Token.ends_cons.2 rfl)
    rfl

/-- A definition that is over is not the beginning of an expression. -/
theorem definition_tokens_ne {x : String} {p q : Phrase .expr} {us vs : List Token} (hus : Over us) :
    (definition x p).tokens ++ us ≠ q.tokens ++ vs := by
  intro h
  obtain ⟨y, b, e, rfl, hrest⟩ := Phrase.exists_letIn h.symm
  simp only [List.append_eq, List.cons_append, List.cons.injEq, true_and] at hrest
  obtain ⟨-, rfl⟩ := p.splits b us _ hrest.2 hus.ends (Token.ends_cons.2 rfl)
  exact absurd hus (by simp)

/-- Tokens determine the statement that they begin with. -/
theorem eq_of_append_eq {c d : Clause} {us vs : List Token} (h : c.tokens ++ us = d.tokens ++ vs)
    (hus : Over us) (hvs : Over vs) : c = d ∧ us = vs := by
  cases c with
  | definition x p =>
    cases d with
    | definition y q =>
      simp only [tokens, List.cons_append, List.cons.injEq, Token.ident.injEq, true_and] at h
      obtain ⟨rfl, h⟩ := h
      obtain ⟨rfl, rfl⟩ := p.splits q us vs h hus.ends hvs.ends
      exact ⟨rfl, rfl⟩
    | bare q => exact absurd h (definition_tokens_ne hus)
  | bare p =>
    cases d with
    | definition y q => exact absurd h.symm (definition_tokens_ne hvs)
    | bare q =>
      obtain ⟨rfl, rfl⟩ := p.splits q us vs h hus.ends hvs.ends
      exact ⟨rfl, rfl⟩

/-- What follows the first statement of a program: `(';' stmt)* ';'?`. -/
def following (more : List Clause) (ended : Bool) : List Token :=
  more.flatMap (fun c => .semicolon :: c.tokens) ++ if ended then [.semicolon] else []

theorem over_following (more : List Clause) (ended : Bool) : Over (following more ended) := by
  cases more with
  | nil => cases ended <;> simp [following]
  | cons c more => simp [following]

theorem following_cons (c : Clause) (more : List Clause) (ended : Bool) :
    following (c :: more) ended = .semicolon :: (c.tokens ++ following more ended) := by
  simp [following]

/-- A lone semicolon at the end is not one before another statement. -/
theorem following_cons_ne (c : Clause) (more : List Clause) (ended ended' : Bool) :
    following (c :: more) ended ≠ following [] ended' := by
  obtain ⟨t, ts, hc⟩ := c.exists_tokens_cons
  cases ended' <;> simp [following, hc]

theorem following_nil_inj : ∀ {ended ended'}, following [] ended = following [] ended' →
    ended = ended' := by
  decide

theorem following_inj {more more' : List Clause} {ended ended' : Bool}
    (h : following more ended = following more' ended') : more = more' ∧ ended = ended' := by
  induction more generalizing more' with
  | nil =>
    cases more' with
    | nil => exact ⟨rfl, following_nil_inj h⟩
    | cons d more' => exact absurd h.symm (following_cons_ne d more' ended' ended)
  | cons c more ih =>
    cases more' with
    | nil => exact absurd h (following_cons_ne c more ended ended')
    | cons d more' =>
      rw [following_cons, following_cons] at h
      obtain ⟨rfl, hmore⟩ := eq_of_append_eq (List.cons.inj h).2 (over_following more ended)
        (over_following more' ended')
      obtain ⟨rfl, rfl⟩ := ih hmore
      exact ⟨rfl, rfl⟩

theorem sequence_cons (c : Clause) (more : List Clause) (ended : Bool) :
    sequence ended (c :: more) = c.tokens ++ following more ended := by
  induction more generalizing c with
  | nil => cases ended <;> simp [sequence, following]
  | cons d more ih =>
    rw [following_cons, ← ih d]
    simp [sequence]

theorem eof_notMem_sequence (ended : Bool) (cs : List Clause) : .eof ∉ sequence ended cs := by
  induction cs with
  | nil => simp [sequence]
  | cons c cs ih =>
    rw [sequence, List.mem_append, not_or]
    refine ⟨c.eof_notMem_tokens, ?_⟩
    split <;> simp [ih]

end Clause

/-! ### Programs -/

/-- How a program is written: `(stmt (';' stmt)* ';'?)?` -/
inductive Script where
  | empty
  | sequence (first : Clause) (more : List Clause) (ended : Bool)

namespace Script

def tokens : Script → List Token
  | .empty => []
  | .sequence first more ended => first.tokens ++ Clause.following more ended

def clauses : Script → List Clause
  | .empty => []
  | .sequence first more _ => first :: more

/-- The statements that a program stands for. -/
def statements (d : Script) : List Statement := d.clauses.map Clause.statement

theorem exists_tokens_eq (ended : Bool) (cs : List Clause) :
    ∃ d : Script, d.clauses = cs ∧ d.tokens = Clause.sequence ended cs := by
  cases cs with
  | nil => exact ⟨.empty, rfl, rfl⟩
  | cons c cs => exact ⟨.sequence c cs ended, rfl, (Clause.sequence_cons c cs ended).symm⟩

theorem exists_sequence_eq (d : Script) :
    ∃ ended, Clause.sequence ended d.clauses = d.tokens := by
  cases d with
  | empty => exact ⟨true, rfl⟩
  | sequence c cs ended => exact ⟨ended, Clause.sequence_cons c cs ended⟩

/-- **No two programs are written with the same tokens.** -/
theorem eq_of_tokens_eq {d d' : Script} (h : d.tokens = d'.tokens) : d = d' := by
  cases d with
  | empty =>
    cases d' with
    | empty => rfl
    | sequence c cs ended =>
      obtain ⟨t, ts, hc⟩ := c.exists_tokens_cons
      simp [tokens, hc] at h
  | sequence c cs ended =>
    cases d' with
    | empty =>
      obtain ⟨t, ts, hc⟩ := c.exists_tokens_cons
      simp [tokens, hc] at h
    | sequence c' cs' ended' =>
      obtain ⟨rfl, hmore⟩ := Clause.eq_of_append_eq h (Clause.over_following cs ended)
        (Clause.over_following cs' ended')
      obtain ⟨rfl, rfl⟩ := Clause.following_inj hmore
      rfl

end Script

/-! ### Reading to the end -/

namespace Parser

/-- A sequence of two readers that succeeds. -/
theorem exists_of_bind_ok {α β : Type} {p : ParseM α} {f : α → ParseM β} {s : Stream} {b : β}
    (h : ((p >>= f) s).1 = .ok b) : ∃ a s', p s = (.ok a, s') ∧ (f a s').1 = .ok b := by
  match hp : p s with
  | (.ok a, s') =>
    rw [bind_of_ok hp] at h
    exact ⟨a, s', rfl, h⟩
  | (.error e, s') =>
    rw [bind_of_error hp] at h
    cases h

theorem peek_of_expect_ok {t : Token} {s : Stream} {u : Unit} (h : (expect t s).1 = .ok u) :
    s.peek.val = t := by
  unfold expect at h
  split at h
  · assumption
  · cases h

/-- What was used before the end of the input is all there was. -/
theorem used_eq {toks used rest : List (Located Token)} {place : Span}
    (h : toks ++ [⟨.eof, place⟩] = used ++ rest) (htoks : .eof ∉ toks.map Located.val)
    (hused : .eof ∉ used.map Located.val) (hnext : nextToken rest = .eof) :
    used.map Located.val = toks.map Located.val := by
  have hvals := congrArg (List.map Located.val) h
  cases rest with
  | nil =>
    rw [List.append_nil] at h
    exact absurd (by simp [← h]) hused
  | cons t rest =>
    have ht : t.val = .eof := hnext
    simp only [List.map_append, List.map_cons, List.map_nil, ht] at hvals
    exact ((List.append_cons_inj_of_notMem htoks (by simp)).1 hvals).1.symm

section Exactly

variable {toks : List (Located Token)} {place : Span}

theorem program_ok_iff (h : .eof ∉ toks.map Located.val) {ss : List Statement} :
    (∃ p, (program (.ofTokens (toks ++ [⟨.eof, place⟩]))).1 = .ok p ∧
        p.statements.map Located.val = ss) ↔
      ∃ d : Script, d.tokens = toks.map Located.val ∧ d.statements = ss := by
  constructor
  · rintro ⟨p, hp, rfl⟩
    rw [program, get_bind] at hp
    obtain ⟨stmts, s, hread, hp⟩ := exists_of_bind_ok hp
    obtain ⟨u, s', hend, hp⟩ := exists_of_bind_ok hp
    cases hp
    obtain ⟨used, rest, htoks, rfl, ended, cs, hcs, hused⟩ := statements_recognizes hread
    have heof : .eof ∉ used.map Located.val := hused ▸ Clause.eof_notMem_sequence ended cs
    have hall := used_eq htoks h heof (peek_of_expect_ok (congrArg Prod.fst hend))
    obtain ⟨d, rfl, hd⟩ := Script.exists_tokens_eq ended cs
    exact ⟨d, by rw [hd, ← hused, hall], hcs.symm⟩
  · rintro ⟨d, hd, rfl⟩
    obtain ⟨ended, hseq⟩ := d.exists_sequence_eq
    let all : List (Located Token) := toks ++ [⟨.eof, place⟩]
    have hvals : all.map Located.val = Clause.sequence ended d.clauses ++ [.eof] := by
      simp [all, hseq, hd]
    obtain ⟨p, hp, hread⟩ := program_sequence d.clauses ended hvals
    exact ⟨p, hread, hp⟩

theorem soleExpression_ok_iff (h : .eof ∉ toks.map Located.val) {e : Expr} :
    (soleExpression (.ofTokens (toks ++ [⟨.eof, place⟩]))).1 = .ok e ↔
      ∃ p : Phrase .expr, p.tokens = toks.map Located.val ∧ p.expr = e := by
  constructor
  · intro he
    obtain ⟨e', s, hread, he⟩ := exists_of_bind_ok he
    obtain ⟨u, s', hend, he⟩ := exists_of_bind_ok he
    cases he
    obtain ⟨used, rest, htoks, rfl, p, rfl, hused⟩ := expression_recognizes hread
    have heof : .eof ∉ used.map Located.val := hused ▸ p.eof_notMem_tokens
    have hall := used_eq htoks h heof (peek_of_expect_ok (congrArg Prod.fst hend))
    exact ⟨p, by rw [← hused, hall], rfl⟩
  · rintro ⟨p, hp, rfl⟩
    exact soleExpression_phrase p (by simp [hp])

end Exactly

/-- **Readers accept exactly what the grammar derives**, from tokens up to the end of the input.

A program is read just if its tokens are those of a `Script`, and its statements are those that the
script stands for. There is only one such script. Where one of its statements begins with `let x =`
and an expression that ends there, the statement defines `x` unless `in` follows. Expressions are read
just if their tokens are those of a `Phrase`, which is the only one too, and as what it stands for. -/
theorem accepts_iff_derives (toks : List (Located Token)) (place : Span)
    (h : .eof ∉ toks.map Located.val) :
    (∀ ss, (∃ p, (program (.ofTokens (toks ++ [⟨.eof, place⟩]))).1 = .ok p ∧
        p.statements.map Located.val = ss) ↔
      ∃ d : Script, d.tokens = toks.map Located.val ∧ d.statements = ss) ∧
    (∀ d d' : Script, d.tokens = toks.map Located.val → d'.tokens = toks.map Located.val → d = d') ∧
    (∀ d : Script, d.tokens = toks.map Located.val → ∀ c ∈ d.clauses, ∀ x (b : Phrase .expr) us,
      c.tokens = .kwLet :: .ident x :: .equals :: (b.tokens ++ us) → Token.Ends us →
      c.statement.name = if us.head? = some .kwIn then none else some x) ∧
    (∀ e, (soleExpression (.ofTokens (toks ++ [⟨.eof, place⟩]))).1 = .ok e ↔
      ∃ p : Phrase .expr, p.tokens = toks.map Located.val ∧ p.expr = e) ∧
    (∀ p q : Phrase .expr, p.tokens = toks.map Located.val → q.tokens = toks.map Located.val →
      p = q) :=
  ⟨fun _ => program_ok_iff h, fun _ _ hd hd' => Script.eq_of_tokens_eq (hd.trans hd'.symm),
    fun _ _ _ _ _ _ _ hc hus => Clause.name_eq_of_tokens_eq hc hus, fun _ => soleExpression_ok_iff h,
    fun _ _ hp hq => Phrase.eq_of_tokens_eq (hp.trans hq.symm)⟩

/-- `let k = fun x y -> x; let z = 1 in k z z`: a definition, and an expression that begins alike. -/
theorem accepts_iff_derives_lets :
    let ts : List Token := [.kwLet, .ident "k", .equals, .kwFun, .ident "x", .ident "y", .arrow,
      .ident "x", .semicolon, .kwLet, .ident "z", .equals, .int 1, .kwIn, .ident "k", .ident "z",
      .ident "z"]
    let toks : List (Located Token) := ts.map fun t => ⟨t, .nowhere⟩
    let use : Expr := .apps (.var "k") [.var "z", .var "z"]
    .eof ∉ toks.map Located.val ∧
      (∃ p, (program (.ofTokens (toks ++ [⟨.eof, .nowhere⟩]))).1 = .ok p ∧
        p.statements.map Located.val = [⟨some "k", .abs "x" (.abs "y" (.var "x"))⟩,
          ⟨none, .letIn "z" (.lit (.int 1)) use⟩]) ∧
      ∃ d : Script, d.tokens = ts ∧ ∀ d' : Script, d'.tokens = ts → d' = d := by
  intro ts toks use
  have heof : .eof ∉ toks.map Located.val := by simp [toks, ts]
  obtain ⟨hprogram, hunique, -⟩ := accepts_iff_derives toks .nowhere heof
  let value : Phrase .expr := .abs true "x" ["y"] (.app (.atom (.name "x")))
  let body : Phrase .app := .apply (.apply (.atom (.name "k")) (.name "z")) (.name "z")
  let d : Script := .sequence (.definition "k" value)
    [.bare (.letIn "z" (.app (.atom (.lit (.int 1)))) (.app body))] false
  exact ⟨heof, (hprogram _).2 ⟨d, rfl, rfl⟩, d, rfl, fun d' hd' => hunique d' d hd' rfl⟩

end Parser

end LetPoly
