import LetPoly.Proofs.Grammar

/-!
# What is read is a phrase

The converse of reading phrases: where the reader succeeds, the tokens that it used are those of a
phrase, and its answer is what the phrase stands for.

The machine's frames are what is left of the tokens that opened them (`Opened`), and each phase adds
what has been read since (`Machine.Holds`). A token that is used keeps this, so when the machine stops
with a whole expression all frames have been closed, and the tokens are one phrase.
-/

namespace LetPoly

open Phrase (lambdaToken)

/-- Tokens that opened frames, outermost first. An abstraction opens a frame for each parameter. -/
inductive Opened : List Frame → List Token → Prop where
  | nil : Opened [] []
  | bound {fs : List Frame} {ts : List Token} (h : Opened fs ts) (x : String) :
    Opened (.bound x :: fs) (ts ++ [.kwLet, .ident x, .equals])
  | body {fs : List Frame} {ts : List Token} (h : Opened fs ts) (x : String) (b : Phrase .expr) :
    Opened (.body x b.expr :: fs) (ts ++ .kwLet :: .ident x :: .equals :: (b.tokens ++ [.kwIn]))
  | abs {fs : List Frame} {ts : List Token} (h : Opened fs ts) (word : Bool) (x : String)
      (more : List String) :
    Opened ((more.map .abs).reverse ++ .abs x :: fs)
      (ts ++ lambdaToken word :: .ident x :: (more.map .ident ++ [.arrow]))
  | bracket {fs : List Frame} {ts : List Token} (h : Opened fs ts) :
    Opened (.bracket none :: fs) (ts ++ [.lparen])
  | argument {fs : List Frame} {ts : List Token} (h : Opened fs ts) (f : Phrase .app) :
    Opened (.bracket (some f.expr) :: fs) (ts ++ (f.tokens ++ [.lparen]))

namespace Machine

/-- What is known of the tokens `ts` that led to frames and an expression that closes them. -/
def Context.Closes (ts : List Token) : Context → Prop
  | .whole e => ∃ p : Phrase .expr, p.expr = e ∧ ts = p.tokens
  | .bound x e outer => ∃ us, Opened outer us ∧ ∃ p : Phrase .expr, p.expr = e ∧
      ts = us ++ .kwLet :: .ident x :: .equals :: p.tokens
  | .bracket none e outer => ∃ us, Opened outer us ∧ ∃ p : Phrase .expr, p.expr = e ∧
      ts = us ++ .lparen :: p.tokens
  | .bracket (some f) e outer => ∃ us, Opened outer us ∧ ∃ g : Phrase .app, g.expr = f ∧
      ∃ p : Phrase .expr, p.expr = e ∧ ts = us ++ (g.tokens ++ .lparen :: p.tokens)

/-- Closing frames puts a phrase into the larger phrases that end with it. -/
theorem closes {fs : List Frame} {ts : List Token} (h : Opened fs ts) (p : Phrase .expr) :
    (close p.expr fs).Closes (ts ++ p.tokens) := by
  induction h generalizing p with
  | nil => exact ⟨p, rfl, rfl⟩
  | bound h x => exact ⟨_, h, p, rfl, by simp⟩
  | body h x b ih => simpa [close, Phrase.tokens, Phrase.expr] using ih (.letIn x b p)
  | abs h word x more ih =>
    rw [close_params]
    simpa [close, Phrase.tokens, Phrase.expr] using ih (.abs word x more p)
  | bracket h => exact ⟨_, h, p, rfl, by simp⟩
  | argument h f => exact ⟨_, h, f, rfl, p, rfl, by simp⟩

/-- What the tokens so far have to do with the state of the machine. -/
def Holds (fs : List Frame) (ts : List Token) : Phase → Prop
  | .start => Opened fs ts
  | .name => ∃ us, Opened fs us ∧ ts = us ++ [.kwLet]
  | .equals x => ∃ us, Opened fs us ∧ ts = us ++ [.kwLet, .ident x]
  | .param => ∃ us, Opened fs us ∧ ∃ word, ts = us ++ [lambdaToken word]
  | .params => ∃ gs us, Opened gs us ∧ ∃ word x, ∃ more : List String,
      fs = (more.map .abs).reverse ++ .abs x :: gs ∧
      ts = us ++ lambdaToken word :: .ident x :: more.map .ident
  | .spine e => ∃ us, Opened fs us ∧ ∃ p : Phrase .app, p.expr = e ∧ ts = us ++ p.tokens

theorem Holds.shift_start {fs fs' : List Frame} {phase : Phase} {ts : List Token} {t : Token}
    (h : Opened fs ts) (hshift : shift? fs .start t = some (fs', phase)) :
    Holds fs' (ts ++ [t]) phase := by
  cases t with
  | kwIn | arrow | equals | rparen | semicolon | eof => cases hshift
  | kwLet =>
    cases hshift
    exact ⟨ts, h, rfl⟩
  | lambda =>
    cases hshift
    exact ⟨ts, h, false, rfl⟩
  | kwFun =>
    cases hshift
    exact ⟨ts, h, true, rfl⟩
  | lparen =>
    cases hshift
    exact h.bracket
  | int n =>
    cases hshift
    exact ⟨ts, h, .atom (.lit (.int n)), rfl, rfl⟩
  | kwTrue =>
    cases hshift
    exact ⟨ts, h, .atom (.lit (.bool true)), rfl, rfl⟩
  | kwFalse =>
    cases hshift
    exact ⟨ts, h, .atom (.lit (.bool false)), rfl, rfl⟩
  | ident x =>
    cases hshift
    exact ⟨ts, h, .atom (.name x), rfl, rfl⟩

/-- After an application come an argument, or what ends the expressions that end with it. -/
theorem Holds.shift_spine {fs fs' : List Frame} {phase : Phase} {ts : List Token} {t : Token}
    (h : Opened fs ts) (f : Phrase .app) (hshift : shift? fs (.spine f.expr) t = some (fs', phase)) :
    Holds fs' (ts ++ f.tokens ++ [t]) phase := by
  have argument : ∀ a : Phrase .atom, a.tokens = [t] →
      Holds fs (ts ++ f.tokens ++ [t]) (.spine (.app f.expr a.expr)) := by
    intro a ha
    exact ⟨ts, h, .apply f a, rfl, by simp [Phrase.tokens, ha]⟩
  have hcloses : (close f.expr fs).Closes (ts ++ f.tokens) := closes h (.app f)
  cases t with
  | kwLet | kwFun | lambda | arrow | equals | semicolon | eof => cases hshift
  | int n =>
    cases hshift
    exact argument (.lit (.int n)) rfl
  | kwTrue =>
    cases hshift
    exact argument (.lit (.bool true)) rfl
  | kwFalse =>
    cases hshift
    exact argument (.lit (.bool false)) rfl
  | ident x =>
    cases hshift
    exact argument (.name x) rfl
  | lparen =>
    cases hshift
    show Opened _ _
    simpa using h.argument f
  | kwIn =>
    dsimp only [shift?] at hshift
    split at hshift <;> cases hshift
    rename_i hclose
    rw [hclose] at hcloses
    obtain ⟨us, hus, p, rfl, hts⟩ := hcloses
    show Opened _ _
    rw [hts]
    simpa using hus.body _ p
  | rparen =>
    dsimp only [shift?] at hshift
    split at hshift <;> cases hshift
    rename_i callee e hclose
    rw [hclose] at hcloses
    cases callee with
    | none =>
      obtain ⟨us, hus, p, rfl, hts⟩ := hcloses
      exact ⟨us, hus, .atom (.bracket p), rfl, by simp [hts, Phrase.tokens]⟩
    | some g =>
      obtain ⟨us, hus, g, rfl, p, rfl, hts⟩ := hcloses
      exact ⟨us, hus, .apply g (.bracket p), rfl, by simp [hts, Phrase.tokens]⟩

/-- **A token that is used keeps the state and the tokens in step.** -/
theorem Holds.shift {fs fs' : List Frame} {phase phase' : Phase} {ts : List Token} {t : Token}
    (h : Holds fs ts phase) (hshift : shift? fs phase t = some (fs', phase')) :
    Holds fs' (ts ++ [t]) phase' := by
  cases phase with
  | start => exact shift_start h hshift
  | name =>
    obtain ⟨us, h, rfl⟩ := h
    cases t <;> cases hshift
    exact ⟨us, h, by simp⟩
  | equals x =>
    obtain ⟨us, h, rfl⟩ := h
    cases t <;> cases hshift
    show Opened _ _
    simpa using h.bound x
  | param =>
    obtain ⟨us, h, word, rfl⟩ := h
    cases t <;> cases hshift
    exact ⟨fs, us, h, word, _, [], rfl, by simp⟩
  | params =>
    obtain ⟨gs, us, h, word, x, more, rfl, rfl⟩ := h
    cases t <;> cases hshift
    · rename_i y
      exact ⟨gs, us, h, word, x, more ++ [y], by simp, by simp⟩
    · show Opened _ _
      simpa using h.abs word x more
  | spine e =>
    obtain ⟨us, h, f, rfl, rfl⟩ := h
    exact shift_spine h f hshift

/-- The machine stops with an expression only after a phrase that stands for it. -/
theorem Holds.verdict {fs : List Frame} {phase : Phase} {ts : List Token} {e : Expr}
    (h : Holds fs ts phase) (hverdict : verdict fs phase = .ok e) :
    ∃ p : Phrase .expr, p.expr = e ∧ ts = p.tokens := by
  cases phase with
  | start | name | equals | param | params => cases hverdict
  | spine e' =>
    obtain ⟨us, h, f, rfl, rfl⟩ := h
    have hcloses : (close f.expr fs).Closes (us ++ f.tokens) := closes h (.app f)
    dsimp only [Machine.verdict] at hverdict
    split at hverdict <;> cases hverdict
    rename_i hclose
    rwa [hclose] at hcloses

theorem Holds.halt {fs : List Frame} {phase : Phase} {ts : List Token} {s s' : Stream} {e : Expr}
    (h : Holds fs ts phase) (hhalt : run.halt fs phase s = (.ok e, s')) :
    s' = s ∧ ∃ p : Phrase .expr, p.expr = e ∧ ts = p.tokens := by
  unfold run.halt at hhalt
  split at hhalt <;> cases hhalt
  rename_i hverdict
  exact ⟨rfl, h.verdict hverdict⟩

/-- **A run that succeeds has used up the tokens of a phrase.** -/
theorem Holds.run {fs : List Frame} {phase : Phase} {ts : List Token} {last : Span}
    {toks : List (Located Token)} {e : Expr} {s : Stream} (h : Holds fs ts phase)
    (hrun : run fs phase last toks = (.ok e, s)) :
    ∃ used rest, toks = used ++ rest ∧ s = ⟨lastSpan last used, rest⟩ ∧
      ∃ p : Phrase .expr, p.expr = e ∧ ts ++ used.map Located.val = p.tokens := by
  induction toks generalizing fs phase ts last with
  | nil =>
    obtain ⟨rfl, p, hp, hts⟩ := h.halt hrun
    exact ⟨[], [], rfl, rfl, p, hp, by simpa using hts⟩
  | cons t toks ih =>
    rw [Machine.run] at hrun
    split at hrun
    · rename_i hshift
      obtain ⟨used, rest, rfl, rfl, p, hp, hts⟩ := ih (h.shift hshift) hrun
      exact ⟨t :: used, rest, rfl, rfl, p, hp, by simpa using hts⟩
    · obtain ⟨rfl, p, hp, hts⟩ := h.halt hrun
      exact ⟨[], t :: toks, rfl, rfl, p, hp, by simpa using hts⟩

end Machine

/-- One more statement, with a semicolon after it. -/
theorem Clause.exists_sequence_cons (c : Clause) (cs : List Clause) (ended : Bool) :
    ∃ ended', sequence ended' (c :: cs) = c.tokens ++ .semicolon :: sequence ended cs := by
  cases cs with
  | nil => exact ⟨true, rfl⟩
  | cons d ds => exact ⟨ended, rfl⟩

/-! ### Readers -/

namespace Parser

/-- A reader that succeeds has used up tokens that have to do with its answer. -/
def Recognizes {α : Type} (p : ParseM α) (Q : α → List Token → Prop) : Prop :=
  ∀ ⦃last : Span⦄ ⦃toks : List (Located Token)⦄ ⦃a : α⦄ ⦃s : Stream⦄, p ⟨last, toks⟩ = (.ok a, s) →
    ∃ used rest, toks = used ++ rest ∧ s = ⟨lastSpan last used, rest⟩ ∧ Q a (used.map Located.val)

namespace Recognizes

variable {α β : Type} {p : ParseM α} {Q : α → List Token → Prop}

theorem mono {R : α → List Token → Prop} (hp : Recognizes p Q) (h : ∀ a ts, Q a ts → R a ts) :
    Recognizes p R := by
  intro last toks a s hread
  obtain ⟨used, rest, htoks, hs, hQ⟩ := hp hread
  exact ⟨used, rest, htoks, hs, h a _ hQ⟩

theorem pure {a : α} (h : Q a []) : Recognizes (Pure.pure a : ParseM α) Q := by
  intro last toks b s hread
  cases hread
  exact ⟨[], toks, rfl, rfl, h⟩

theorem get {f : Stream → ParseM α} (h : ∀ s, Recognizes (f s) Q) :
    Recognizes (MonadState.get >>= f) Q := fun last toks _ _ hread => h ⟨last, toks⟩ hread

/-- In a sequence of two readers each answers for its part of the tokens. -/
theorem bind {f : α → ParseM β} {R : β → List Token → Prop} (hp : Recognizes p Q)
    (hf : ∀ a us, Q a us → Recognizes (f a) fun b ts => R b (us ++ ts)) :
    Recognizes (p >>= f) R := by
  intro last toks b s hread
  match hfirst : p ⟨last, toks⟩ with
  | (.error e, s') =>
    rw [bind_of_error hfirst] at hread
    cases hread
  | (.ok a, s') =>
    obtain ⟨used, rest, rfl, rfl, ha⟩ := hp hfirst
    rw [bind_of_ok hfirst] at hread
    obtain ⟨used', rest', rfl, rfl, hb⟩ := hf a _ ha hread
    exact ⟨used ++ used', rest', by simp, by simp, by simpa using hb⟩

end Recognizes

/-- The end of the input need not be among the tokens. -/
theorem expect_recognizes (t : Token) :
    Recognizes (expect t) fun _ ts => ts = [t] ∨ t = .eof ∧ ts = [] := by
  intro last toks a s hread
  unfold expect at hread
  split at hread <;> cases hread
  rename_i hpeek
  cases toks with
  | nil => exact ⟨[], [], rfl, rfl, .inr ⟨hpeek.symm, rfl⟩⟩
  | cons t' toks => exact ⟨[t'], toks, rfl, rfl, .inl (congrArg (fun t => [t]) hpeek)⟩

theorem expect_recognizes_of_ne {t : Token} (ht : t ≠ .eof) :
    Recognizes (expect t) fun _ ts => ts = [t] :=
  (expect_recognizes t).mono fun _ _ h => h.resolve_right fun hend => ht hend.1

theorem identifier_recognizes : Recognizes identifier fun x ts => ts = [.ident x] := by
  intro last toks x s hread
  unfold identifier at hread
  split at hread <;> cases hread
  rename_i hpeek
  cases toks with
  | nil => cases hpeek
  | cons t toks => exact ⟨[t], toks, rfl, rfl, congrArg (fun t => [t]) hpeek⟩

/-- **What is read as an expression is a phrase.** -/
theorem expression_recognizes :
    Recognizes expression fun e ts => ∃ p : Phrase .expr, p.expr = e ∧ ts = p.tokens := by
  intro last toks e s hread
  have h : Machine.Holds [] [] .start := Opened.nil
  exact h.run hread

theorem definition_recognizes :
    Recognizes definition fun s ts => ∃ c : Clause, c.statement = s ∧ ts = c.tokens := by
  refine (expect_recognizes_of_ne (by simp)).bind ?_
  rintro - _ rfl
  refine identifier_recognizes.bind ?_
  rintro x _ rfl
  refine (expect_recognizes_of_ne (by simp)).bind ?_
  rintro - _ rfl
  refine expression_recognizes.bind ?_
  rintro _ _ ⟨b, rfl, rfl⟩
  refine Recognizes.get fun s => ?_
  split
  · refine (expect_recognizes_of_ne (by simp)).bind ?_
    rintro - _ rfl
    refine expression_recognizes.bind ?_
    rintro _ _ ⟨e, rfl, rfl⟩
    exact .pure ⟨.bare (.letIn x b e), rfl, by simp [Clause.tokens, Phrase.tokens]⟩
  · exact .pure ⟨.definition x b, rfl, by simp [Clause.tokens]⟩

theorem anyStatement_recognizes :
    Recognizes anyStatement fun s ts => ∃ c : Clause, c.statement = s ∧ ts = c.tokens := by
  have hbare : Recognizes bareExpression fun s ts =>
      ∃ c : Clause, c.statement = s ∧ ts = c.tokens := by
    refine expression_recognizes.bind ?_
    rintro _ _ ⟨p, rfl, rfl⟩
    exact .pure ⟨.bare p, rfl, by simp [Clause.tokens]⟩
  intro last toks s s' hread
  unfold anyStatement at hread
  split at hread
  · exact definition_recognizes hread
  · exact hbare hread

theorem statement_recognizes :
    Recognizes statement fun s ts => ∃ c : Clause, c.statement = s.val ∧ ts = c.tokens := by
  refine Recognizes.get fun _ => anyStatement_recognizes.bind ?_
  rintro _ _ ⟨c, rfl, rfl⟩
  exact Recognizes.get fun _ => .pure ⟨c, rfl, by simp⟩

/-- **What is read as a program is one.** -/
theorem statements_recognizes : Recognizes statements fun ss ts =>
    ∃ ended cs, ss.map Located.val = cs.map Clause.statement ∧ ts = Clause.sequence ended cs := by
  intro last toks ss s hread
  generalize hs : Stream.mk last toks = s₀ at hread
  fun_induction statements s₀ generalizing last toks ss with
  | case1 s₀ hpeek =>
    cases hread
    cases hs
    exact ⟨[], toks, rfl, rfl, true, [], rfl, rfl⟩
  | case2 s₀ hpeek e s₁ hfirst => cases hread
  | case3 s₀ hpeek first s₁ hfirst hsemi hlt e s₂ hmore => cases hread
  | case4 s₀ hpeek first s₁ hfirst hsemi hlt more s₂ hmore ih =>
    cases hread
    cases hs
    obtain ⟨used, rest, rfl, rfl, c, hc, hused⟩ := statement_recognizes hfirst
    cases rest with
    | nil => cases hsemi
    | cons t rest =>
      have ht : t.val = .semicolon := hsemi
      obtain ⟨used', rest', rfl, rfl, ended, cs, hcs, hused'⟩ := ih rfl hmore
      obtain ⟨ended', hseq⟩ := c.exists_sequence_cons cs ended
      exact ⟨used ++ t :: used', rest', by simp, by simp, ended', c :: cs, by simp [hc, hcs],
        by simp [hseq, hused, ht, hused']⟩
  | case5 s₀ hpeek first s₁ hfirst hsemi =>
    cases hread
    cases hs
    obtain ⟨used, rest, rfl, rfl, c, hc, hused⟩ := statement_recognizes hfirst
    exact ⟨used, rest, rfl, rfl, false, [c], by simp [hc], by simp [Clause.sequence, hused]⟩

theorem program_recognizes : Recognizes program fun p ts => ∃ ended cs,
    p.statements.map Located.val = cs.map Clause.statement ∧
      (ts = Clause.sequence ended cs ++ [.eof] ∨ ts = Clause.sequence ended cs) := by
  refine Recognizes.get fun _ => statements_recognizes.bind ?_
  rintro ss _ ⟨ended, cs, hss, rfl⟩
  refine (expect_recognizes .eof).bind ?_
  rintro - us hus
  refine .pure ⟨ended, cs, hss, ?_⟩
  simpa using hus.imp id And.right

end Parser

end LetPoly
