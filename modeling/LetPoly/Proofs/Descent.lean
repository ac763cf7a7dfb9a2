import LetPoly.Proofs.Blame

/-!
# The machine as recursive descent

The grammar can also be read off as functions that call each other: one for each kind of phrase, and
loops for parameters, arguments and statements. `Descent.expression` and `Descent.program` are these
functions with fuel, of which every call and every turn of a loop uses a unit, and which have no
answer when it runs out. That they end is not obvious, since a call may be made without having used a
token.

The machine keeps what is open around an expression in its frames, where the functions keep it in
their callers. What it does inside some frames is what it does without them, followed by what the
frames are waiting for (`Machine.readOn_append`). So reading an expression satisfies the equations of
the functions (`Parser.expression_let`, `Parser.expression_lambda`, `Parser.expression_application`),
and with fuel in proportion to the tokens that are left the functions give its answers
(`Descent.expression_eq`, `Descent.program_eq`).
-/

namespace LetPoly

/-- What follows a reader depends only on what the reader leaves. -/
theorem Parser.bind_congr_at {α β : Type} {p q : ParseM α} {s s' : Stream} (h : p s = q s')
    (f : α → ParseM β) : (p >>= f) s = (q >>= f) s' := by
  simp only [bind, ExceptT.bind, ExceptT.mk, StateT.bind, h]

theorem Parser.bind_congr_of_ok {α β : Type} {p : ParseM α} {f g : α → ParseM β} {s : Stream}
    (h : ∀ a s', p s = (.ok a, s') → f a s' = g a s') : (p >>= f) s = (p >>= g) s := by
  match hp : p s with
  | (.error e, s') => rw [bind_of_error hp, bind_of_error hp]
  | (.ok a, s') => rw [bind_of_ok hp, bind_of_ok hp, h a s' hp]

/-! ### Frames around a run -/

namespace Machine

/-- Reads on in a stream. -/
def readOn (fs : List Frame) (phase : Phase) : ParseM Expr := fun s => run fs phase s.last s.rest

theorem shift?_eof (fs : List Frame) (phase : Phase) : shift? fs phase .eof = none := by
  cases phase <;> rfl

section Steps

variable {fs fs' gs gs' : List Frame} {phase phase' : Phase} {s s' : Stream} {e e' : Expr} {t : Token}

theorem readOn_of_shift (h : shift? fs phase s.peek.val = some (fs', phase')) :
    readOn fs phase s = readOn fs' phase' s.advance := by
  obtain ⟨last, _ | ⟨t, ts⟩⟩ := s
  · have hend : shift? fs phase .eof = some (fs', phase') := h
    rw [shift?_eof] at hend
    cases hend
  · have hshift : shift? fs phase t.val = some (fs', phase') := h
    rw [readOn, run, hshift]
    rfl

theorem readOn_of_halt (h : shift? fs phase s.peek.val = none) :
    readOn fs phase s = run.halt fs phase s := by
  obtain ⟨last, _ | ⟨t, ts⟩⟩ := s
  · rfl
  · have hshift : shift? fs phase t.val = none := h
    rw [readOn, run, hshift]

/-- If a token that cannot be used leaves something open, it is an error. -/
theorem readOn_of_error {expected : String} (h : shift? fs phase s.peek.val = none)
    (hverdict : verdict fs phase = .error expected) :
    readOn fs phase s = (.error (s.unexpected expected), s) := by
  rw [readOn_of_halt h, run.halt, hverdict]

/-- A context with more frames around it. -/
def Context.around (fs : List Frame) : Context → Context
  | .whole e => close e fs
  | .bound x e outer => .bound x e (outer ++ fs)
  | .bracket callee e outer => .bracket callee e (outer ++ fs)

theorem close_append (e : Expr) (gs fs : List Frame) :
    close e (gs ++ fs) = (close e gs).around fs := by
  induction gs generalizing e with
  | nil => rfl
  | cons g gs ih =>
    cases g with
    | abs x => exact ih (.abs x e)
    | body x v => exact ih (.letIn x v e)
    | bound x => rfl
    | bracket callee => rfl

/-- A token is used in the same way with more frames around. -/
theorem shift?_append (h : shift? gs phase t = some (gs', phase')) (fs : List Frame) :
    shift? (gs ++ fs) phase t = some (gs' ++ fs, phase') := by
  cases phase with
  | start => cases t <;> cases h <;> rfl
  | name | equals | param => cases t <;> cases h; rfl
  | params => cases t <;> cases h <;> rfl
  | spine e =>
    cases t with
    | kwLet | kwFun | lambda | arrow | equals | semicolon | eof => cases h
    | int | kwTrue | kwFalse | ident | lparen =>
      cases h
      rfl
    | kwIn =>
      dsimp only [shift?] at h
      split at h <;> cases h
      rename_i hclose
      simp [shift?, close_append, hclose, Context.around]
    | rparen =>
      dsimp only [shift?] at h
      split at h <;> cases h
      rename_i hclose
      simp [shift?, close_append, hclose, Context.around]

/-- After an application every token that begins an argument is used. -/
theorem startsAtom_of_shift? (h : shift? fs (.spine e) t = none) : t.startsAtom = false := by
  cases t with
  | int | kwTrue | kwFalse | ident | lparen => cases h
  | kwLet | kwIn | kwFun | lambda | arrow | equals | rparen | semicolon | eof => rfl

/-- Only a whole expression is an answer. -/
theorem exists_of_verdict_ok (h : verdict fs phase = .ok e) :
    ∃ e', phase = .spine e' ∧ close e' fs = .whole e := by
  cases phase with
  | start | name | equals | param | params => cases h
  | spine e' =>
    dsimp only [verdict] at h
    split at h <;> cases h
    exact ⟨e', rfl, by assumption⟩

/-- Unless an argument follows, only what an expression closes matters. -/
theorem shift?_spine_congr (hclose : close e fs = close e' fs') (ht : t.startsAtom = false) :
    shift? fs (.spine e) t = shift? fs' (.spine e') t := by
  cases t with
  | int | kwTrue | kwFalse | ident | lparen => cases ht
  | kwIn | rparen => simp only [shift?, hclose]
  | kwLet | kwFun | lambda | arrow | equals | semicolon | eof => rfl

theorem readOn_spine_congr (hclose : close e fs = close e' fs')
    (hs : s.peek.val.startsAtom = false) :
    readOn fs (.spine e) s = readOn fs' (.spine e') s := by
  have hshift := shift?_spine_congr hclose hs
  cases h : shift? fs' (.spine e') s.peek.val with
  | some st =>
    rw [readOn_of_shift h]
    exact readOn_of_shift (hshift.trans h)
  | none =>
    have hverdict : verdict fs (.spine e) = verdict fs' (.spine e') := by simp only [verdict, hclose]
    rw [readOn_of_halt h, readOn_of_halt (hshift.trans h), run.halt, run.halt, hverdict]

/-- A token that is an error stays the same error with more frames around. -/
theorem shift?_append_of_error {expected : String} (h : shift? gs phase t = none)
    (hverdict : verdict gs phase = .error expected) (fs : List Frame) :
    shift? (gs ++ fs) phase t = none ∧ verdict (gs ++ fs) phase = .error expected := by
  cases phase with
  | start | name | equals | param | params =>
    refine ⟨?_, hverdict⟩
    cases t <;> first | rfl | cases h
  | spine e =>
    have hstop := startsAtom_of_shift? h
    cases hclose : close e gs with
    | whole e' => simp [verdict, hclose] at hverdict
    | bound x e' outer =>
      have hclose' : close e (gs ++ fs) = .bound x e' (outer ++ fs) := by
        rw [close_append, hclose, Context.around]
      constructor
      · cases t with
        | kwIn => simp [shift?, hclose] at h
        | rparen => simp [shift?, hclose']
        | _ => first | rfl | cases hstop
      · simpa [verdict, hclose, hclose'] using hverdict
    | bracket callee e' outer =>
      have hclose' : close e (gs ++ fs) = .bracket callee e' (outer ++ fs) := by
        rw [close_append, hclose, Context.around]
      constructor
      · cases t with
        | kwIn => simp [shift?, hclose']
        | rparen => simp [shift?, hclose] at h
        | _ => first | rfl | cases hstop
      · simpa [verdict, hclose, hclose'] using hverdict

end Steps

/-- What holds where the machine halts, and is passed back over every token that it uses, holds
wherever it reads. -/
theorem readOn_induction {P : List Frame → Phase → Stream → Prop}
    (halt : ∀ fs phase s, shift? fs phase s.peek.val = none → P fs phase s)
    (shift : ∀ fs phase s fs' phase', shift? fs phase s.peek.val = some (fs', phase') →
      P fs' phase' s.advance → P fs phase s) (fs : List Frame) (phase : Phase) (s : Stream) :
    P fs phase s := by
  obtain ⟨last, ts⟩ := s
  induction ts generalizing fs phase last with
  | nil => exact halt fs phase ⟨last, []⟩ (shift?_eof fs phase)
  | cons t ts ih =>
    cases h : shift? fs phase t.val with
    | none => exact halt fs phase ⟨last, t :: ts⟩ h
    | some st => exact shift fs phase ⟨last, t :: ts⟩ st.1 st.2 h (ih st.1 st.2 t.span)

/-- **Frames around a run wait for what it reads.** -/
theorem readOn_append (gs fs : List Frame) (phase : Phase) (s : Stream) :
    readOn (gs ++ fs) phase s = (readOn gs phase >>= fun e => readOn fs (.spine e)) s := by
  induction gs, phase, s using readOn_induction with
  | shift gs phase s gs' phase' h ih =>
    rw [Parser.bind_congr_at (readOn_of_shift h), ← ih]
    exact readOn_of_shift (shift?_append h fs)
  | halt gs phase s h =>
    cases hverdict : verdict gs phase with
    | error expected =>
      obtain ⟨h', hverdict'⟩ := shift?_append_of_error h hverdict fs
      rw [readOn_of_error h' hverdict', Parser.bind_of_error (readOn_of_error h hverdict)]
    | ok e =>
      have hread : readOn gs phase s = (.ok e, s) := by rw [readOn_of_halt h, run.halt, hverdict]
      obtain ⟨e', rfl, hclose⟩ := exists_of_verdict_ok hverdict
      rw [Parser.bind_of_ok hread]
      refine readOn_spine_congr ?_ (startsAtom_of_shift? h)
      rw [close_append, hclose, Context.around]

/-- A reader that succeeds has read as far as arguments go. -/
theorem startsAtom_of_readOn {fs : List Frame} {phase : Phase} {s s' : Stream} {e : Expr}
    (h : readOn fs phase s = (.ok e, s')) : s'.peek.val.startsAtom = false := by
  induction fs, phase, s using readOn_induction with
  | shift fs phase s fs' phase' hshift ih => exact ih ((readOn_of_shift hshift).symm.trans h)
  | halt fs phase s hshift =>
    rw [readOn_of_halt hshift, run.halt] at h
    split at h <;> cases h
    rename_i hverdict
    obtain ⟨e', rfl, -⟩ := exists_of_verdict_ok hverdict
    exact startsAtom_of_shift? hshift

/-! ### What is read in each phase -/

section Phases

variable {fs fs' : List Frame} {phase phase' : Phase} {s : Stream}

/-- Where only one token can be used, it is expected. -/
theorem readOn_expect {t : Token} (huse : shift? fs phase t = some (fs', phase'))
    (honly : s.peek.val ≠ t → shift? fs phase s.peek.val = none)
    (hverdict : verdict fs phase = .error t.quoted) :
    readOn fs phase s = (Parser.expect t >>= fun _ => readOn fs' phase') s := by
  by_cases hpeek : s.peek.val = t
  · rw [Parser.bind_of_ok (Parser.expect_of_peek hpeek)]
    exact readOn_of_shift (hpeek ▸ huse)
  · have hexpect : Parser.expect t s = (.error (s.unexpected t.quoted), s) := if_neg hpeek
    rw [Parser.bind_of_error hexpect]
    exact readOn_of_error (honly hpeek) hverdict

/-- Where only names can be used, one is expected. -/
theorem readOn_identifier {fs' : String → List Frame} {phase' : String → Phase}
    (huse : ∀ x, shift? fs phase (.ident x) = some (fs' x, phase' x))
    (honly : ∀ t, (∀ x, t ≠ .ident x) → shift? fs phase t = none)
    (hverdict : verdict fs phase = .error "identifier") :
    readOn fs phase s = (Parser.identifier >>= fun x => readOn (fs' x) (phase' x)) s := by
  by_cases hpeek : ∃ x, s.peek.val = .ident x
  · obtain ⟨x, hpeek⟩ := hpeek
    have hname : Parser.identifier s = (.ok x, s.advance) := by simp only [Parser.identifier, hpeek]
    rw [Parser.bind_of_ok hname]
    exact readOn_of_shift (hpeek ▸ huse x)
  · have hnone : ∀ x, s.peek.val ≠ .ident x := fun x hx => hpeek ⟨x, hx⟩
    have hname : Parser.identifier s = (.error (s.unexpected "identifier"), s) := by
      unfold Parser.identifier
      split
      · rename_i x hx
        exact absurd hx (hnone x)
      · rfl
    rw [Parser.bind_of_error hname]
    exact readOn_of_error (honly _ hnone) hverdict

theorem readOn_start (fs : List Frame) (s : Stream) :
    readOn fs .start s = (Parser.expression >>= fun e => readOn fs (.spine e)) s :=
  readOn_append [] fs .start s

theorem readOn_name (fs : List Frame) (s : Stream) :
    readOn fs .name s = (Parser.identifier >>= fun x => readOn fs (.equals x)) s := by
  refine readOn_identifier (fun _ => rfl) (fun t ht => ?_) rfl
  cases t <;> first | rfl | exact absurd rfl (ht _)

theorem readOn_param (fs : List Frame) (s : Stream) :
    readOn fs .param s = (Parser.identifier >>= fun x => readOn (.abs x :: fs) .params) s := by
  refine readOn_identifier (fun _ => rfl) (fun t ht => ?_) rfl
  cases t <;> first | rfl | exact absurd rfl (ht _)

theorem readOn_equals (fs : List Frame) (x : String) (s : Stream) :
    readOn fs (.equals x) s =
      (Parser.expect .equals >>= fun _ => readOn (.bound x :: fs) .start) s := by
  refine readOn_expect rfl (fun hne => ?_) rfl
  cases h : s.peek.val <;> first | rfl | exact absurd h hne

theorem readOn_bound (fs : List Frame) (x : String) (b : Expr)
    (hs : s.peek.val.startsAtom = false) : readOn (.bound x :: fs) (.spine b) s =
      (Parser.expect .kwIn >>= fun _ => readOn (.body x b :: fs) .start) s := by
  refine readOn_expect rfl (fun hne => ?_) rfl
  generalize s.peek.val = t at hs hne
  cases t <;> first | rfl | exact absurd rfl hne | cases hs

theorem readOn_bracket (fs : List Frame) (callee : Option Expr) (e : Expr)
    (hs : s.peek.val.startsAtom = false) : readOn (.bracket callee :: fs) (.spine e) s =
      (Parser.expect .rparen >>= fun _ => readOn fs (.spine (applyTo callee e))) s := by
  refine readOn_expect rfl (fun hne => ?_) rfl
  generalize s.peek.val = t at hs hne
  cases t <;> first | rfl | exact absurd rfl hne | cases hs

end Phases

end Machine

/-! ### The equations of recursive descent -/

namespace Parser

open Machine (readOn)

/-- Moves past the next token, whatever it is. -/
def skip : ParseM Unit := fun s => (.ok (), s.advance)

theorem skip_bind {α : Type} (f : Unit → ParseM α) (s : Stream) :
    (skip >>= f) s = f () s.advance := rfl

/-- The names that come next. -/
def names (last : Span) : List (Located Token) → List String × Stream
  | [] => ([], ⟨last, []⟩)
  | t :: ts =>
    match t.val with
    | .ident x => (x :: (names t.span ts).1, (names t.span ts).2)
    | _ => ([], ⟨last, t :: ts⟩)

/-- Reads parameters, as many as there are. -/
def parameters : ParseM (List String) := fun s => (.ok (names s.last s.rest).1, (names s.last s.rest).2)

/-- Reads `let x = bound`. -/
def binding : ParseM (String × Expr) := do
  expect .kwLet
  let x ← identifier
  expect .equals
  return (x, ← expression)

/-- Reads an abstraction, whose first token is known to begin one. -/
def abstraction : ParseM Expr := do
  skip
  let x ← identifier
  let more ← parameters
  expect .arrow
  return .abs x (more.foldr .abs (← expression))

/-- Reads an expression in brackets, the first of which is known to be there. -/
def bracketed : ParseM Expr := do
  skip
  let e ← expression
  expect .rparen
  return e

/-- Reads what can be an argument. -/
def atom : ParseM Expr := fun s =>
  match s.peek.val.atom? with
  | some e => (.ok e, s.advance)
  | none =>
    if s.peek.val = .lparen then bracketed s else (.error (s.unexpected "expression"), s)

/-- Reads arguments, as many as there are, for a function. -/
def arguments (f : Expr) : ParseM Expr := readOn [] (.spine f)

/-- Reads an application. -/
def application : ParseM Expr := do
  arguments (← atom)

theorem parameters_of_ident {s : Stream} {x : String} (h : s.peek.val = .ident x) :
    parameters s = (do skip; return x :: (← parameters) : ParseM (List String)) s := by
  obtain ⟨last, _ | ⟨t, ts⟩⟩ := s
  · cases h
  · have ht : t.val = .ident x := h
    simp only [parameters, names, ht]
    rfl

theorem parameters_of_ne {s : Stream} (h : ∀ x, s.peek.val ≠ .ident x) :
    parameters s = (.ok [], s) := by
  obtain ⟨last, _ | ⟨t, ts⟩⟩ := s
  · rfl
  · simp only [parameters, names]
    split
    · rename_i x hx
      exact absurd hx (h x)
    · rfl

theorem readOn_params_of_ne {s : Stream} (h : ∀ x, s.peek.val ≠ .ident x) (fs : List Frame) :
    readOn fs .params s = (expect .arrow >>= fun _ => readOn fs .start) s := by
  refine Machine.readOn_expect rfl (fun hne => ?_) rfl
  generalize s.peek.val = t at h hne
  cases t <;> first | rfl | exact absurd rfl hne | exact absurd rfl (h _)

theorem readOn_params_of_ident {s : Stream} {x : String} (h : s.peek.val = .ident x)
    (fs : List Frame) : readOn fs .params s = readOn (.abs x :: fs) .params s.advance := by
  refine Machine.readOn_of_shift ?_
  rw [h]
  rfl

/-- Parameters are stacked, and then the arrow is expected. -/
theorem readOn_params (fs : List Frame) (s : Stream) :
    readOn fs .params s = (do
      let xs ← parameters
      expect .arrow
      readOn ((xs.map .abs).reverse ++ fs) .start : ParseM Expr) s := by
  obtain ⟨last, ts⟩ := s
  induction ts generalizing fs last with
  | nil =>
    have hnone : ∀ x, (Stream.mk last []).peek.val ≠ .ident x := fun x hx => by cases hx
    rw [bind_of_ok (parameters_of_ne hnone)]
    exact readOn_params_of_ne hnone fs
  | cons t ts ih =>
    by_cases ht : ∃ x, t.val = .ident x
    · obtain ⟨x, ht⟩ := ht
      have hpeek : (Stream.mk last (t :: ts)).peek.val = .ident x := ht
      rw [readOn_params_of_ident hpeek, bind_congr_at (parameters_of_ident hpeek)]
      simp only [bind_assoc, pure_bind]
      rw [skip_bind]
      refine (ih (.abs x :: fs) t.span).trans (bind_congr_of_ok fun xs s' _ => ?_)
      simp only [List.map_cons, List.reverse_cons, List.append_assoc, List.singleton_append]
    · have hnone : ∀ x, (Stream.mk last (t :: ts)).peek.val ≠ .ident x := fun x hx => ht ⟨x, hx⟩
      rw [bind_of_ok (parameters_of_ne hnone)]
      exact readOn_params_of_ne hnone fs

theorem expression_let {s : Stream} (h : s.peek.val = .kwLet) :
    expression s = (do
      let b ← binding
      expect .kwIn
      return .letIn b.1 b.2 (← expression) : ParseM Expr) s := by
  have hshift : Machine.shift? [] .start s.peek.val = some ([], .name) := by rw [h]; rfl
  simp only [binding, bind_assoc, pure_bind]
  rw [bind_of_ok (expect_of_peek h)]
  refine (Machine.readOn_of_shift hshift).trans ?_
  rw [Machine.readOn_name]
  refine bind_congr_of_ok fun x s₁ _ => ?_
  rw [Machine.readOn_equals]
  refine bind_congr_of_ok fun _ s₂ _ => ?_
  rw [Machine.readOn_start]
  refine bind_congr_of_ok fun b s₃ hb => ?_
  rw [Machine.readOn_bound [] x b (Machine.startsAtom_of_readOn hb)]
  refine bind_congr_of_ok fun _ s₄ _ => ?_
  rw [Machine.readOn_start]
  refine bind_congr_of_ok fun e s₅ he => ?_
  exact Machine.run_whole rfl _ (Machine.startsAtom_of_readOn he)

theorem expression_lambda {s : Stream} (h : s.peek.val = .lambda ∨ s.peek.val = .kwFun) :
    expression s = abstraction s := by
  have hshift : Machine.shift? [] .start s.peek.val = some ([], .param) := by
    rcases h with h | h <;> rw [h] <;> rfl
  rw [abstraction, skip_bind]
  refine (Machine.readOn_of_shift hshift).trans ?_
  rw [Machine.readOn_param]
  refine bind_congr_of_ok fun x s₁ _ => ?_
  rw [readOn_params]
  refine bind_congr_of_ok fun more s₂ _ => ?_
  refine bind_congr_of_ok fun _ s₃ _ => ?_
  rw [Machine.readOn_start]
  refine bind_congr_of_ok fun e s₄ he => ?_
  have hclose : Machine.close e ((more.map .abs).reverse ++ [.abs x]) =
      .whole (.abs x (more.foldr .abs e)) := by
    rw [Machine.close_params]
    rfl
  exact Machine.run_whole hclose _ (Machine.startsAtom_of_readOn he)

/-- The phase before an argument, or before an expression if there is no function yet. -/
def phaseFor : Option Expr → Phase
  | none => .start
  | some f => .spine f

theorem shift?_atom {t : Token} {e : Expr} (h : t.atom? = some e) (fs : List Frame)
    (callee : Option Expr) : Machine.shift? fs (phaseFor callee) t =
      some (fs, .spine (Machine.applyTo callee e)) := by
  cases callee <;> cases t <;> cases h <;> rfl

/-- Before an argument or an application, an atom is read, or it is an error. -/
theorem readOn_atom (fs : List Frame) (callee : Option Expr) {s : Stream}
    (hnone : s.peek.val.startsAtom = false → Machine.shift? fs (phaseFor callee) s.peek.val = none ∧
      Machine.verdict fs (phaseFor callee) = .error "expression") :
    readOn fs (phaseFor callee) s =
      (atom >>= fun a => readOn fs (.spine (Machine.applyTo callee a))) s := by
  cases hatom : s.peek.val.atom? with
  | some e =>
    have hread : atom s = (.ok e, s.advance) := by simp only [atom, hatom]
    rw [bind_of_ok hread]
    exact Machine.readOn_of_shift (shift?_atom hatom fs callee)
  | none =>
    by_cases hbracket : s.peek.val = .lparen
    · have hread : atom s = bracketed s := by simp only [atom, hatom, if_pos hbracket]
      have hshift : Machine.shift? fs (phaseFor callee) s.peek.val =
          some (.bracket callee :: fs, .start) := by
        rw [hbracket]
        cases callee <;> rfl
      rw [bind_congr_at hread, Machine.readOn_of_shift hshift, bracketed]
      simp only [bind_assoc, pure_bind]
      rw [skip_bind, Machine.readOn_start]
      refine bind_congr_of_ok fun e s₁ he => ?_
      rw [Machine.readOn_bracket fs callee e (Machine.startsAtom_of_readOn he)]
    · have hstop : s.peek.val.startsAtom = false := by simp [Token.startsAtom, hatom, hbracket]
      obtain ⟨hshift, hverdict⟩ := hnone hstop
      have hread : atom s = (.error (s.unexpected "expression"), s) := by
        simp only [atom, hatom, if_neg hbracket]
      rw [bind_of_error hread]
      exact Machine.readOn_of_error hshift hverdict

theorem expression_application {s : Stream} (hlet : s.peek.val ≠ .kwLet)
    (hlambda : ¬ (s.peek.val = .lambda ∨ s.peek.val = .kwFun)) : expression s = application s := by
  refine readOn_atom [] none fun hstop => ⟨?_, rfl⟩
  generalize s.peek.val = t at hlet hlambda hstop
  cases t with
  | kwLet => exact absurd rfl hlet
  | lambda => exact absurd (.inl rfl) hlambda
  | kwFun => exact absurd (.inr rfl) hlambda
  | int | kwTrue | kwFalse | ident | lparen => cases hstop
  | kwIn | arrow | equals | rparen | semicolon | eof => rfl

theorem arguments_of_startsAtom {f : Expr} {s : Stream} (h : s.peek.val.startsAtom = true) :
    arguments f s = (do arguments (.app f (← atom)) : ParseM Expr) s :=
  readOn_atom [] (some f) fun hstop => by
    rw [h] at hstop
    cases hstop

theorem arguments_of_stop {f : Expr} {s : Stream} (h : s.peek.val.startsAtom = false) :
    arguments f s = (.ok f, s) :=
  Machine.run_whole rfl _ h

/-- After a binding, `in` tells an expression from a definition. -/
theorem definition_eq : definition = (do
    let b ← binding
    if (← get).peek.val = .kwIn then
      expect .kwIn
      return ⟨none, .letIn b.1 b.2 (← expression)⟩
    else return ⟨some b.1, b.2⟩) := by
  simp only [definition, binding, bind_assoc, pure_bind]

theorem moves_skip : Moves skip := Stream.reaches_advance

theorem moves_binding : Moves binding :=
  (moves_expect _).bind fun _ => moves_identifier.bind fun _ =>
    (moves_expect _).bind fun _ => moves_expression.bind fun _ => .pure _

theorem moves_parameters : Moves parameters := by
  rintro ⟨last, ts⟩
  induction ts generalizing last with
  | nil => exact .refl _
  | cons t ts ih =>
    simp only [parameters, names]
    split
    · exact (Stream.reaches_advance ⟨last, t :: ts⟩).trans (ih t.span)
    · exact .refl _

end Parser

/-! ### Fuel -/

/-- Reading tokens, perhaps without coming to an end. -/
abbrev PartialM := ExceptT (Located ParseFault) (StateT Stream Option)

namespace Descent

/-- A reader that ends. -/
def lift {α : Type} (p : ParseM α) : PartialM α := fun s => some (p s)

/-- No answer. -/
def stuck {α : Type} : PartialM α := fun _ => none

open LetPoly.Parser (expect identifier skip)

/-- Reads parameters, as many as there are. -/
def parameters : Nat → PartialM (List String)
  | 0 => stuck
  | fuel + 1 => do
    match (← get).peek.val with
    | .ident x =>
      lift skip
      return x :: (← parameters fuel)
    | _ => return []

mutual

/-- Reads an expression, by its first token. -/
def expression : Nat → PartialM Expr
  | 0 => stuck
  | fuel + 1 => do
    let t := (← get).peek.val
    if t = .kwLet then
      let b ← binding fuel
      lift (expect .kwIn)
      return .letIn b.1 b.2 (← expression fuel)
    else if t = .lambda ∨ t = .kwFun then abstraction fuel
    else application fuel

/-- Reads `let x = bound`. -/
def binding : Nat → PartialM (String × Expr)
  | 0 => stuck
  | fuel + 1 => do
    lift (expect .kwLet)
    let x ← lift identifier
    lift (expect .equals)
    return (x, ← expression fuel)

/-- Reads an abstraction. -/
def abstraction : Nat → PartialM Expr
  | 0 => stuck
  | fuel + 1 => do
    lift skip
    let x ← lift identifier
    let more ← parameters fuel
    lift (expect .arrow)
    return .abs x (more.foldr .abs (← expression fuel))

/-- Reads an application. -/
def application : Nat → PartialM Expr
  | 0 => stuck
  | fuel + 1 => do
    arguments fuel (← atom fuel)

/-- Reads arguments, as many as there are, for a function. -/
def arguments : Nat → Expr → PartialM Expr
  | 0, _ => stuck
  | fuel + 1, f => do
    if (← get).peek.val.startsAtom then arguments fuel (.app f (← atom fuel))
    else return f

/-- Reads a name, a literal or an expression in brackets. -/
def atom : Nat → PartialM Expr
  | 0 => stuck
  | fuel + 1 => do
    let s ← get
    match s.peek.val.atom? with
    | some e =>
      lift skip
      return e
    | none =>
      if s.peek.val = .lparen then
        lift skip
        let e ← expression fuel
        lift (expect .rparen)
        return e
      else throw (s.unexpected "expression")

end

/-- Reads either kind of statement. -/
def anyStatement (fuel : Nat) : PartialM Statement := do
  if (← get).peek.val = .kwLet then
    let b ← binding fuel
    if (← get).peek.val = .kwIn then
      lift (expect .kwIn)
      return ⟨none, .letIn b.1 b.2 (← expression fuel)⟩
    else return ⟨some b.1, b.2⟩
  else return ⟨none, ← expression fuel⟩

/-- Reads a statement, with its place. -/
def statement (fuel : Nat) : PartialM (Located Statement) := do
  let start := (← get).peek.span.start
  let s ← anyStatement fuel
  return ⟨s, start, (← get).last.stop⟩

/-- Reads statements, as many as there are. -/
def statements : Nat → PartialM (List (Located Statement))
  | 0 => stuck
  | fuel + 1 => do
    if (← get).peek.val = .eof then return []
    else
      let first ← statement fuel
      if (← get).peek.val = .semicolon then
        lift (expect .semicolon)
        return first :: (← statements fuel)
      else return [first]

/-- Reads a program up to the end of input. -/
def program (fuel : Nat) : PartialM Program := do
  let start := (← get).peek.span.start
  let ss ← statements fuel
  lift (expect .eof)
  return ⟨ss, start, match ss.getLast? with
    | some s => s.span.stop
    | none => start⟩

/-! ### The answers -/

section Answers

variable {α β : Type} {s s' : Stream}

/-- If every part of a sequence answers as a reader that ends, so does the sequence. -/
theorem bind_eq {d : PartialM α} {p : ParseM α} {f : α → PartialM β} {g : α → ParseM β}
    (h : d s = some (p s)) (hf : ∀ a s', p s = (.ok a, s') → f a s' = some (g a s')) :
    (d >>= f) s = some ((p >>= g) s) := by
  match hp : p s with
  | (.error e, s') =>
    rw [Parser.bind_of_error hp]
    simp only [bind, ExceptT.bind, ExceptT.mk, StateT.bind, h, hp]
    rfl
  | (.ok a, s') =>
    rw [Parser.bind_of_ok hp, ← hf a s' hp]
    simp only [bind, ExceptT.bind, ExceptT.mk, StateT.bind, h, hp]
    rfl

theorem get_bind (f : Stream → PartialM β) (s : Stream) : (get >>= f : PartialM β) s = f s s := rfl

theorem length_advance_lt (h : s.peek.val ≠ .eof) : s.advance.rest.length < s.rest.length := by
  obtain ⟨last, _ | ⟨t, ts⟩⟩ := s
  · exact absurd rfl h
  · exact Nat.lt_succ_self ts.length

theorem length_le {p : ParseM α} (hp : Parser.Moves p) {r : Except (Located ParseFault) α}
    (h : p s = (r, s')) : s'.rest.length ≤ s.rest.length := by
  have hle := (hp.forward s).length_le
  rwa [h] at hle

theorem length_expect_lt {t : Token} (ht : t ≠ .eof) {u : Unit} (h : expect t s = (.ok u, s')) :
    s'.rest.length < s.rest.length := by
  have hpeek := Parser.peek_of_expect_ok (congrArg Prod.fst h)
  rw [Parser.expect_of_peek hpeek] at h
  cases h
  exact length_advance_lt (hpeek ▸ ht)

theorem length_identifier_lt {x : String} (h : identifier s = (.ok x, s')) :
    s'.rest.length < s.rest.length := by
  unfold identifier at h
  split at h <;> cases h
  rename_i hpeek
  exact length_advance_lt (by simp [hpeek])

theorem length_atom_lt {e : Expr} (h : Parser.atom s = (.ok e, s')) :
    s'.rest.length < s.rest.length := by
  unfold Parser.atom at h
  split at h
  · rename_i hatom
    cases h
    refine length_advance_lt fun hend => ?_
    rw [hend] at hatom
    cases hatom
  · split at h
    · rename_i hbracket
      have hinside : Parser.Moves (do
          let e ← Parser.expression
          expect .rparen
          return e : ParseM Expr) :=
        Parser.moves_expression.bind fun _ => (Parser.moves_expect _).bind fun _ => .pure _
      have hle := length_le hinside (s := s.advance) h
      have hlt : s.advance.rest.length < s.rest.length := length_advance_lt (by simp [hbracket])
      omega
    · cases h

end Answers

theorem parameters_eq {fuel : Nat} {s : Stream} (h : s.rest.length + 1 ≤ fuel) :
    parameters fuel s = some (Parser.parameters s) := by
  induction fuel generalizing s with
  | zero => omega
  | succ fuel ih =>
    rw [parameters, get_bind]
    cases hpeek : s.peek.val with
    | ident x =>
      have hlt : s.advance.rest.length < s.rest.length := length_advance_lt (by simp [hpeek])
      rw [Parser.parameters_of_ident hpeek]
      refine bind_eq rfl fun _ s₁ h₁ => bind_eq (ih ?_) fun xs s₂ _ => rfl
      cases h₁
      omega
    | _ =>
      rw [Parser.parameters_of_ne (by simp [hpeek])]
      rfl

/-- With this much fuel, everything that is read inside expressions has the answer that the machine
gives, if there are few enough tokens left. Three calls can follow each other before a token is
used. -/
structure Answered (fuel : Nat) : Prop where
  expression : ∀ s : Stream, 3 * s.rest.length + 3 ≤ fuel →
    expression fuel s = some (Parser.expression s)
  binding : ∀ s : Stream, 3 * s.rest.length + 2 ≤ fuel → binding fuel s = some (Parser.binding s)
  abstraction : ∀ s : Stream, 3 * s.rest.length + 2 ≤ fuel →
    abstraction fuel s = some (Parser.abstraction s)
  application : ∀ s : Stream, 3 * s.rest.length + 2 ≤ fuel →
    application fuel s = some (Parser.application s)
  arguments : ∀ (f : Expr) (s : Stream), 3 * s.rest.length + 2 ≤ fuel →
    arguments fuel f s = some (Parser.arguments f s)
  atom : ∀ s : Stream, 3 * s.rest.length + 1 ≤ fuel → atom fuel s = some (Parser.atom s)

namespace Answered

variable {fuel : Nat} {s : Stream}

theorem zero : Answered 0 := by
  constructor <;> intros <;> omega

theorem expression_succ (h : Answered fuel) (hs : 3 * s.rest.length + 3 ≤ fuel + 1) :
    Descent.expression (fuel + 1) s = some (Parser.expression s) := by
  rw [Descent.expression, get_bind]
  by_cases hlet : s.peek.val = .kwLet
  · rw [if_pos hlet, Parser.expression_let hlet]
    refine bind_eq (h.binding s (by omega)) fun b s₁ h₁ => ?_
    have hle := length_le Parser.moves_binding h₁
    refine bind_eq rfl fun _ s₂ h₂ => ?_
    have hlt := length_expect_lt (by decide) h₂
    exact bind_eq (h.expression s₂ (by omega)) fun _ _ _ => rfl
  · rw [if_neg hlet]
    by_cases hlambda : s.peek.val = .lambda ∨ s.peek.val = .kwFun
    · rw [if_pos hlambda, Parser.expression_lambda hlambda]
      exact h.abstraction s (by omega)
    · rw [if_neg hlambda, Parser.expression_application hlet hlambda]
      exact h.application s (by omega)

theorem binding_succ (h : Answered fuel) (hs : 3 * s.rest.length + 2 ≤ fuel + 1) :
    Descent.binding (fuel + 1) s = some (Parser.binding s) := by
  rw [Descent.binding, Parser.binding]
  refine bind_eq rfl fun _ s₁ h₁ => ?_
  have hlet := length_expect_lt (by decide) h₁
  refine bind_eq rfl fun x s₂ h₂ => ?_
  have hname := length_identifier_lt h₂
  refine bind_eq rfl fun _ s₃ h₃ => ?_
  have hequals := length_expect_lt (by decide) h₃
  exact bind_eq (h.expression s₃ (by omega)) fun _ _ _ => rfl

theorem abstraction_succ (h : Answered fuel) (hs : 3 * s.rest.length + 2 ≤ fuel + 1) :
    Descent.abstraction (fuel + 1) s = some (Parser.abstraction s) := by
  rw [Descent.abstraction, Parser.abstraction]
  refine bind_eq rfl fun _ s₁ h₁ => ?_
  have hskip := length_le Parser.moves_skip h₁
  refine bind_eq rfl fun x s₂ h₂ => ?_
  have hname := length_identifier_lt h₂
  refine bind_eq (parameters_eq (by omega)) fun more s₃ h₃ => ?_
  have hmore := length_le Parser.moves_parameters h₃
  refine bind_eq rfl fun _ s₄ h₄ => ?_
  have harrow := length_expect_lt (by decide) h₄
  exact bind_eq (h.expression s₄ (by omega)) fun _ _ _ => rfl

theorem application_succ (h : Answered fuel) (hs : 3 * s.rest.length + 2 ≤ fuel + 1) :
    Descent.application (fuel + 1) s = some (Parser.application s) := by
  rw [Descent.application, Parser.application]
  refine bind_eq (h.atom s (by omega)) fun f s₁ h₁ => ?_
  have hlt := length_atom_lt h₁
  exact h.arguments f s₁ (by omega)

theorem arguments_succ (h : Answered fuel) (f : Expr) (hs : 3 * s.rest.length + 2 ≤ fuel + 1) :
    Descent.arguments (fuel + 1) f s = some (Parser.arguments f s) := by
  rw [Descent.arguments, get_bind]
  cases hstarts : s.peek.val.startsAtom with
  | false =>
    rw [Parser.arguments_of_stop hstarts]
    rfl
  | true =>
    rw [if_pos rfl, Parser.arguments_of_startsAtom hstarts]
    refine bind_eq (h.atom s (by omega)) fun a s₁ h₁ => ?_
    have hlt := length_atom_lt h₁
    exact h.arguments (.app f a) s₁ (by omega)

theorem atom_succ (h : Answered fuel) (hs : 3 * s.rest.length + 1 ≤ fuel + 1) :
    Descent.atom (fuel + 1) s = some (Parser.atom s) := by
  rw [Descent.atom, get_bind, Parser.atom]
  cases hatom : s.peek.val.atom? with
  | some e => rfl
  | none =>
    by_cases hbracket : s.peek.val = .lparen
    · have hlt : s.advance.rest.length < s.rest.length := length_advance_lt (by simp [hbracket])
      simp only [if_pos hbracket]
      refine bind_eq rfl fun _ s₁ h₁ => ?_
      cases h₁
      refine bind_eq (h.expression s.advance (by omega)) fun e s₂ _ => ?_
      exact bind_eq rfl fun _ _ _ => rfl
    · simp only [if_neg hbracket]
      rfl

theorem succ (h : Answered fuel) : Answered (fuel + 1) where
  expression _ := h.expression_succ
  binding _ := h.binding_succ
  abstraction _ := h.abstraction_succ
  application _ := h.application_succ
  arguments f _ := h.arguments_succ f
  atom _ := h.atom_succ

end Answered

theorem answered (fuel : Nat) : Answered fuel := by
  induction fuel with
  | zero => exact .zero
  | succ fuel ih => exact ih.succ

/-- **Recursive descent ends**, with the answer of the machine. -/
theorem expression_eq {fuel : Nat} {s : Stream} (h : 3 * s.rest.length + 3 ≤ fuel) :
    expression fuel s = some (Parser.expression s) :=
  (answered fuel).expression s h

/-! ### Statements -/

section Statements

variable {fuel : Nat} {s : Stream}

theorem anyStatement_eq (h : 3 * s.rest.length + 3 ≤ fuel) :
    anyStatement fuel s = some (Parser.anyStatement s) := by
  rw [anyStatement, Parser.anyStatement, get_bind]
  by_cases hlet : s.peek.val = .kwLet
  · rw [if_pos hlet, if_pos hlet, Parser.definition_eq]
    refine bind_eq ((answered fuel).binding s (by omega)) fun b s₁ h₁ => ?_
    have hle := length_le Parser.moves_binding h₁
    rw [get_bind, Parser.get_bind]
    by_cases hin : s₁.peek.val = .kwIn
    · rw [if_pos hin, if_pos hin]
      refine bind_eq rfl fun _ s₂ h₂ => ?_
      have hlt := length_expect_lt (by decide) h₂
      exact bind_eq (expression_eq (by omega)) fun _ _ _ => rfl
    · rw [if_neg hin, if_neg hin]
      rfl
  · rw [if_neg hlet, if_neg hlet]
    exact bind_eq (expression_eq h) fun _ _ _ => rfl

theorem statement_eq (h : 3 * s.rest.length + 3 ≤ fuel) :
    statement fuel s = some (Parser.statement s) := by
  rw [statement, Parser.statement, get_bind, Parser.get_bind]
  exact bind_eq (anyStatement_eq h) fun _ _ _ => rfl

theorem statements_eq (h : 3 * s.rest.length + 4 ≤ fuel) :
    statements fuel s = some (Parser.statements s) := by
  induction fuel generalizing s with
  | zero => omega
  | succ fuel ih =>
    rw [statements, get_bind]
    by_cases heof : s.peek.val = .eof
    · rw [if_pos heof, Parser.statements_eq, if_pos heof]
      rfl
    · rw [if_neg heof, Parser.statements_of_ne heof]
      refine bind_eq (statement_eq (by omega)) fun first s₁ h₁ => ?_
      rw [get_bind, Parser.get_bind]
      by_cases hsemi : s₁.peek.val = .semicolon
      · rw [if_pos hsemi, if_pos hsemi]
        have hle := length_le Parser.moves_statement h₁
        refine bind_eq rfl fun _ s₂ h₂ => ?_
        have hlt := length_expect_lt (by decide) h₂
        exact bind_eq (ih (by omega)) fun _ _ _ => rfl
      · rw [if_neg hsemi, if_neg hsemi]
        rfl

/-- **Reading a program by recursive descent ends**, with the answer of the machine. -/
theorem program_eq (h : 3 * s.rest.length + 4 ≤ fuel) :
    program fuel s = some (Parser.program s) := by
  rw [program, Parser.program, get_bind, Parser.get_bind]
  refine bind_eq (statements_eq h) fun ss s₁ _ => ?_
  exact bind_eq rfl fun _ _ _ => rfl

end Statements

end Descent

end LetPoly
