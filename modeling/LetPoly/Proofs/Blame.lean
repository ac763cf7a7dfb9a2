import LetPoly.Proofs.Unambiguity
import Mathlib.Data.Nat.Init

/-!
# Errors are at the first token that does not fit

A reader that fails blames the token in front of which it stands. That this is the right one has two
halves. What was used before it can be completed (`Parser.Completes`): whatever constructs are open,
the machine has a way to close them (`Machine.completable`). And the token itself ends all hope:
readers look no further than the next token (`Parser.Online`), so whatever comes after it, they fail at
the same place.
-/

namespace LetPoly

/-! ### One token of lookahead -/

namespace Parser

/-- From some place on a reader looks no further than at the next token. Whatever comes behind that
token, the reader stops at the same place with the same answer. -/
def OnlineAt {α : Type} (p : ParseM α) (s : Stream) : Prop :=
  ∃ used rest, s.rest = used ++ rest ∧ ∀ rest', rest'.head? = rest.head? →
    p ⟨s.last, used ++ rest'⟩ = ((p s).1, ⟨(p s).2.last, rest'⟩)

def Online {α : Type} (p : ParseM α) : Prop := ∀ s, OnlineAt p s

theorem head?_append_congr {α : Type} {us vs : List α} (h : us.head? = vs.head?) (ts : List α) :
    (ts ++ us).head? = (ts ++ vs).head? := by
  rw [List.head?_append, List.head?_append, h]

theorem peek_congr {s : Stream} {rest : List (Located Token)} (h : rest.head? = s.rest.head?) :
    (Stream.mk s.last rest).peek = s.peek := by
  simp only [Stream.peek, List.headD_eq_head?_getD, h]

theorem unexpected_congr {s : Stream} {rest : List (Located Token)} (h : rest.head? = s.rest.head?)
    (expected : String) : (Stream.mk s.last rest).unexpected expected = s.unexpected expected := by
  simp only [Stream.unexpected, peek_congr h]

namespace OnlineAt

variable {α β : Type} {p q : ParseM α} {s : Stream}

theorem pure (a : α) (s : Stream) : OnlineAt (Pure.pure a) s := ⟨[], s.rest, rfl, fun _ _ => rfl⟩

/-- Readers that the next token makes the same. -/
theorem congr (hp : OnlineAt p s) (h : ∀ rest, rest.head? = s.rest.head? →
    q ⟨s.last, rest⟩ = p ⟨s.last, rest⟩) : OnlineAt q s := by
  obtain ⟨used, rest, hs, hstop⟩ := hp
  refine ⟨used, rest, hs, fun rest' hhead => ?_⟩
  have hself : q s = p s := h s.rest rfl
  rw [h _ (by rw [hs, head?_append_congr hhead]), hself]
  exact hstop rest' hhead

theorem get {f : Stream → ParseM α} (hf : OnlineAt (f s) s)
    (h : ∀ rest, rest.head? = s.rest.head? → f ⟨s.last, rest⟩ = f s) :
    OnlineAt (MonadState.get >>= f) s :=
  hf.congr fun rest hhead => by rw [get_bind, h rest hhead]

/-- The place where the reader stops is the one it was seen to stop at. -/
theorem exists_used (hp : OnlineAt p s) {r : Except (Located ParseFault) α} {s' : Stream}
    (hread : p s = (r, s')) : ∃ used, s.rest = used ++ s'.rest ∧
      ∀ rest', rest'.head? = s'.rest.head? → p ⟨s.last, used ++ rest'⟩ = (r, ⟨s'.last, rest'⟩) := by
  obtain ⟨used, rest, hs, h⟩ := hp
  rw [hread] at h
  have hself := h rest rfl
  rw [← hs] at hself
  obtain rfl : s'.rest = rest := congrArg (fun r => r.2.rest) (hread.symm.trans hself)
  exact ⟨used, hs, h⟩

theorem bind {f : α → ParseM β} (hp : OnlineAt p s)
    (hf : ∀ a s', p s = (.ok a, s') → OnlineAt (f a) s') : OnlineAt (p >>= f) s := by
  match hfirst : p s with
  | (.error e, s') =>
    obtain ⟨used, hs, h⟩ := hp.exists_used hfirst
    refine ⟨used, s'.rest, hs, fun rest hhead => ?_⟩
    rw [bind_of_error hfirst, bind_of_error (h rest hhead)]
  | (.ok a, s') =>
    obtain ⟨used, hs, h⟩ := hp.exists_used hfirst
    obtain ⟨used', rest', hs', h'⟩ := hf a s' hfirst
    refine ⟨used ++ used', rest', by rw [hs, hs', List.append_assoc], fun rest'' hhead => ?_⟩
    have hnext : (used' ++ rest'').head? = s'.rest.head? := by
      rw [hs', head?_append_congr hhead]
    rw [bind_of_ok hfirst, List.append_assoc, bind_of_ok (h _ hnext)]
    exact h' rest'' hhead

end OnlineAt

/-- A reader that decides by the next token, and either stays in front of it or passes it. -/
theorem Online.of_cons {α : Type} {p : ParseM α} (hnil : ∀ last, (p ⟨last, []⟩).2.rest = [])
    (hcons : ∀ last t, ∃ r last', (∀ ts, p ⟨last, t :: ts⟩ = (r, ⟨last', t :: ts⟩)) ∨
      ∀ ts, p ⟨last, t :: ts⟩ = (r, ⟨last', ts⟩)) : Online p := by
  rintro ⟨last, _ | ⟨t, ts⟩⟩
  · refine ⟨[], [], rfl, fun rest' hhead => ?_⟩
    obtain rfl := List.head?_eq_none_iff.1 hhead
    exact Prod.ext rfl (congrArg (Stream.mk _) (hnil last))
  · obtain ⟨r, last', hstay | hpass⟩ := hcons last t
    · refine ⟨[], t :: ts, rfl, fun rest' hhead => ?_⟩
      obtain ⟨ts', rfl⟩ := List.head?_eq_some_iff.1 hhead
      rw [hstay ts]
      exact hstay ts'
    · refine ⟨[t], ts, rfl, fun rest' _ => ?_⟩
      rw [hpass ts]
      exact hpass rest'

theorem online_expect (t : Token) : Online (expect t) := by
  refine .of_cons (fun last => ?_) fun last t' => ?_
  · unfold expect
    split <;> rfl
  · by_cases ht : t'.val = t
    · exact ⟨.ok (), t'.span, .inr fun ts => expect_cons ht⟩
    · exact ⟨.error ((Stream.mk last [t']).unexpected t.quoted), last, .inl fun ts => if_neg ht⟩

theorem online_identifier : Online identifier := by
  refine .of_cons (fun last => rfl) fun last t => ?_
  by_cases ht : ∃ x, t.val = .ident x
  · obtain ⟨x, ht⟩ := ht
    exact ⟨.ok x, t.span, .inr fun ts => identifier_cons ht⟩
  · refine ⟨.error ((Stream.mk last [t]).unexpected "identifier"), last, .inl fun ts => ?_⟩
    unfold identifier
    split
    · rename_i x hpeek
      exact absurd ⟨x, hpeek⟩ ht
    · rfl

theorem halt_congr (fs : List Frame) (phase : Phase) (last : Span)
    {rest rest' : List (Located Token)} (h : rest'.head? = rest.head?) :
    Machine.run.halt fs phase ⟨last, rest'⟩ =
      ((Machine.run.halt fs phase ⟨last, rest⟩).1, ⟨last, rest'⟩) := by
  unfold Machine.run.halt
  split
  · rfl
  · rw [unexpected_congr (s := ⟨last, rest⟩) h]

/-- The machine decides about every token when it sees it. -/
theorem online_run (toks : List (Located Token)) (fs : List Frame) (phase : Phase) (last : Span) :
    OnlineAt (fun s => Machine.run fs phase s.last s.rest) ⟨last, toks⟩ := by
  induction toks generalizing fs phase last with
  | nil =>
    refine ⟨[], [], rfl, fun rest' hhead => ?_⟩
    obtain rfl := List.head?_eq_none_iff.1 hhead
    simpa [Machine.run] using halt_congr fs phase last rfl
  | cons t ts ih =>
    cases hshift : Machine.shift? fs phase t.val with
    | some st =>
      obtain ⟨used, rest, hts, h⟩ := ih st.1 st.2 t.span
      refine ⟨t :: used, rest, congrArg (t :: ·) hts, fun rest' hhead => ?_⟩
      simp only [List.cons_append, Machine.run, hshift]
      exact h rest' hhead
    | none =>
      refine ⟨[], t :: ts, rfl, fun rest' hhead => ?_⟩
      obtain ⟨ts', rfl⟩ := List.head?_eq_some_iff.1 hhead
      simpa [Machine.run, hshift] using halt_congr fs phase last hhead

theorem online_expression : Online expression := fun s => online_run s.rest [] .start s.last

theorem online_definition : Online definition := by
  intro s
  refine (online_expect _ s).bind fun _ s _ => (online_identifier s).bind fun x s _ =>
    (online_expect _ s).bind fun _ s _ => (online_expression s).bind fun b s _ => .get ?_ ?_
  · split
    · exact (online_expect _ s).bind fun _ s _ => (online_expression s).bind fun _ s _ => .pure _ s
    · exact .pure _ s
  · intro rest hhead
    rw [peek_congr hhead]

theorem online_anyStatement : Online anyStatement := by
  intro s
  by_cases hlet : s.peek.val = .kwLet
  · exact (online_definition s).congr fun rest hhead => if_pos (by rw [peek_congr hhead, hlet])
  · have hbare : OnlineAt bareExpression s := (online_expression s).bind fun _ s _ => .pure _ s
    exact hbare.congr fun rest hhead => if_neg (by rwa [peek_congr hhead])

theorem online_statement : Online statement := by
  intro s
  refine .get ((online_anyStatement s).bind fun _ s _ => .get (.pure _ s) fun _ _ => rfl) ?_
  intro rest hhead
  simp only [peek_congr hhead]

/-- Unless the input has ended, a statement is read, and more of them if a semicolon follows. -/
theorem statements_of_ne {s : Stream} (h : s.peek.val ≠ .eof) :
    statements s = (do
      let first ← statement
      if (← get).peek.val = .semicolon then
        expect .semicolon
        return first :: (← statements)
      else return [first] : ParseM (List (Located Statement))) s := by
  rw [statements_eq, if_neg h]
  match hfirst : statement s with
  | (.error e, s') => rw [bind_of_error hfirst]
  | (.ok first, s') =>
    rw [bind_of_ok hfirst, get_bind]
    dsimp only
    by_cases hsemi : s'.peek.val = .semicolon
    · rw [if_pos hsemi, if_pos hsemi, bind_of_ok (expect_of_peek hsemi)]
      match hmore : statements s'.advance with
      | (.error e, s'') => rw [bind_of_error hmore]
      | (.ok more, s'') =>
        rw [bind_of_ok hmore]
        rfl
    · rw [if_neg hsemi, if_neg hsemi]
      rfl

theorem online_statements : Online statements := by
  intro s
  induction hn : s.rest.length using Nat.strong_induction_on generalizing s with
  | _ n ih =>
    by_cases hend : s.peek.val = .eof
    · refine (OnlineAt.pure [] s).congr fun rest hhead => ?_
      rw [statements_eq, if_pos (by rw [peek_congr hhead, hend])]
      rfl
    · refine OnlineAt.congr ?_ fun rest hhead => statements_of_ne (by rwa [peek_congr hhead])
      refine (online_statement s).bind fun first s' hread => .get ?_ fun rest hhead => ?_
      · split
        · rename_i hsemi
          refine (online_expect _ s').bind fun _ s'' hexpect => ?_
          obtain rfl : s'.advance = s'' :=
            congrArg Prod.snd ((expect_of_peek hsemi).symm.trans hexpect)
          refine (ih _ ?_ _ rfl).bind fun _ s _ => .pure _ s
          rw [← hn]
          exact length_rest_advance_lt hread hsemi
        · exact .pure _ s'
      · rw [peek_congr hhead]

theorem online_program : Online program := by
  intro s
  refine .get ((online_statements s).bind fun _ s _ => (online_expect _ s).bind fun _ s _ =>
    .pure _ s) fun rest hhead => ?_
  simp only [peek_congr hhead]

theorem online_soleExpression : Online soleExpression := fun s =>
  (online_expression s).bind fun _ s _ => (online_expect _ s).bind fun _ s _ => .pure _ s

end Parser

/-! ### What is open can be closed -/

namespace Machine

/-- Tokens that close all frames, if an expression is at hand. -/
def closing : List Frame → List Token
  | [] => []
  | .abs _ :: fs => closing fs
  | .body .. :: fs => closing fs
  | .bound x :: fs => .kwIn :: .ident x :: closing fs
  | .bracket _ :: fs => .rparen :: closing fs

/-- A state from which the machine can be led to a whole expression. -/
def Completable (fs : List Frame) (phase : Phase) : Prop :=
  ∃ ts fs' e' e, shiftAll? fs phase ts = some (fs', .spine e') ∧ close e' fs' = .whole e

theorem Completable.of_shift {fs fs' : List Frame} {phase phase' : Phase} {t : Token}
    (h : Completable fs' phase') (hshift : shift? fs phase t = some (fs', phase')) :
    Completable fs phase := by
  obtain ⟨ts, fs'', e', e, hts, hclose⟩ := h
  exact ⟨t :: ts, fs'', e', e, by simp [hshift, hts], hclose⟩

/-- The frames to be closed are those of `gs`; abstractions and bodies of `let` that end with the
expression in hand may lie before them. -/
theorem shiftAll?_closing (gs : List Frame) {fs : List Frame} {e e' : Expr}
    (h : close e fs = close e' gs) : ∃ fs' e₁ e₂,
      shiftAll? fs (.spine e) (closing gs) = some (fs', .spine e₁) ∧ close e₁ fs' = .whole e₂ := by
  induction gs generalizing fs e e' with
  | nil => exact ⟨fs, e, e', rfl, h⟩
  | cons g gs ih =>
    cases g with
    | abs x => exact @ih fs e (.abs x e') h
    | body x v => exact @ih fs e (.letIn x v e') h
    | bound x =>
      obtain ⟨fs', e₁, e₂, hts, hwhole⟩ := @ih (.body x e' :: gs) (.var x) _ rfl
      have hclose : close e fs = .bound x e' gs := h
      have hin : shift? fs (.spine e) .kwIn = some (.body x e' :: gs, .start) := by
        simp [shift?, hclose]
      exact ⟨fs', e₁, e₂, by rw [closing, shiftAll?_cons, hin]; exact hts, hwhole⟩
    | bracket callee =>
      obtain ⟨fs', e₁, e₂, hts, hwhole⟩ := @ih gs (applyTo callee e') _ rfl
      have hclose : close e fs = .bracket callee e' gs := h
      have hend : shift? fs (.spine e) .rparen = some (gs, .spine (applyTo callee e')) := by
        simp [shift?, hclose]
      exact ⟨fs', e₁, e₂, by rw [closing, shiftAll?_cons, hend]; exact hts, hwhole⟩

/-- **Every state can be completed.** -/
theorem completable (fs : List Frame) (phase : Phase) : Completable fs phase := by
  have hspine : ∀ fs e, Completable fs (.spine e) := fun fs e => ⟨closing fs, shiftAll?_closing fs rfl⟩
  have hstart : ∀ fs, Completable fs .start := fun fs =>
    (hspine fs (.var "x")).of_shift (t := .ident "x") rfl
  have hequals : ∀ fs x, Completable fs (.equals x) := fun fs x =>
    (hstart (.bound x :: fs)).of_shift (t := .equals) rfl
  have hparams : ∀ fs, Completable fs .params := fun fs => (hstart fs).of_shift (t := .arrow) rfl
  cases phase with
  | start => exact hstart fs
  | name => exact (hequals fs "x").of_shift (t := .ident "x") rfl
  | equals x => exact hequals fs x
  | param => exact (hparams (.abs "x" :: fs)).of_shift (t := .ident "x") rfl
  | params => exact hparams fs
  | spine e => exact hspine fs e

theorem Holds.shiftAll {fs fs' : List Frame} {phase phase' : Phase} {ts us : List Token}
    (h : Holds fs ts phase) (hshift : shiftAll? fs phase us = some (fs', phase')) :
    Holds fs' (ts ++ us) phase' := by
  induction us generalizing fs phase ts with
  | nil =>
    obtain ⟨rfl, rfl⟩ := Prod.mk.inj (Option.some.inj hshift)
    simpa using h
  | cons u us ih =>
    rw [shiftAll?_cons] at hshift
    obtain ⟨⟨fs₁, phase₁⟩, hfirst, hshift⟩ := Option.bind_eq_some_iff.1 hshift
    simpa using ih (h.shift hfirst) hshift

/-- Tokens that the machine can use begin a phrase. -/
theorem exists_phrase {ts : List Token} {fs : List Frame} {phase : Phase}
    (h : shiftAll? [] .start ts = some (fs, phase)) :
    ∃ more, ∃ p : Phrase .expr, ts ++ more = p.tokens := by
  obtain ⟨more, fs', e', e, hmore, hwhole⟩ := completable fs phase
  have hall : shiftAll? [] .start (ts ++ more) = some (fs', .spine e') := by
    simp [shiftAll?_append, h, hmore]
  have hstart : Holds [] [] .start := Opened.nil
  have hholds : Holds fs' (ts ++ more) (.spine e') := hstart.shiftAll hall
  have hverdict : Machine.verdict fs' (.spine e') = .ok e := by simp [Machine.verdict, hwhole]
  obtain ⟨p, -, hp⟩ := hholds.verdict hverdict
  exact ⟨more, p, hp⟩

end Machine

/-! ### What was used can be completed -/

theorem Script.eof_notMem_tokens (d : Script) : .eof ∉ d.tokens := by
  obtain ⟨ended, hseq⟩ := d.exists_sequence_eq
  rw [← hseq]
  exact Clause.eof_notMem_sequence ended d.clauses

namespace Parser

/-- A reader that fails blames the next token, and what it has used begins something that it should
read. -/
def Completes {α : Type} (p : ParseM α) (L : List Token → Prop) : Prop :=
  ∀ ⦃last : Span⦄ ⦃toks : List (Located Token)⦄ ⦃e : Located ParseFault⦄ ⦃s : Stream⦄,
    p ⟨last, toks⟩ = (.error e, s) → ∃ used, toks = used ++ s.rest ∧
      (∃ expected, e = s.unexpected expected) ∧ ∃ more, L (used.map Located.val ++ more)

namespace Completes

variable {α β : Type} {p : ParseM α} {L : List Token → Prop}

theorem extend {K : List Token → Prop} (hp : Completes p K) (h : ∀ ts, K ts → ∃ more, L (ts ++ more)) :
    Completes p L := by
  intro last toks e s hfail
  obtain ⟨used, htoks, hblame, more, hmore⟩ := hp hfail
  obtain ⟨more', hL⟩ := h _ hmore
  exact ⟨used, htoks, hblame, more ++ more', by rwa [← List.append_assoc]⟩

theorem pure (a : α) : Completes (Pure.pure a : ParseM α) L := by
  intro last toks e s hfail
  cases hfail

theorem get {f : Stream → ParseM α} (h : ∀ s, Completes (f s) L) :
    Completes (MonadState.get >>= f) L := fun last toks _ _ hfail => h ⟨last, toks⟩ hfail

theorem bind {f : α → ParseM β} {Q : α → List Token → Prop} (hp : Recognizes p Q)
    (hfail : Completes p L) (hf : ∀ a us, Q a us → Completes (f a) fun ts => L (us ++ ts)) :
    Completes (p >>= f) L := by
  intro last toks e s hread
  match hfirst : p ⟨last, toks⟩ with
  | (.error e', s') =>
    rw [bind_of_error hfirst] at hread
    cases hread
    exact hfail hfirst
  | (.ok a, s') =>
    obtain ⟨used, rest, rfl, rfl, ha⟩ := hp hfirst
    rw [bind_of_ok hfirst] at hread
    obtain ⟨used', rfl, hblame, more, hmore⟩ := hf a _ ha hread
    exact ⟨used ++ used', by simp, hblame, more, by simpa using hmore⟩

end Completes

theorem expect_completes (t : Token) {L : List Token → Prop} (ts : List Token) (h : L ts) :
    Completes (expect t) L := by
  intro last toks e s hfail
  unfold expect at hfail
  split at hfail <;> cases hfail
  exact ⟨[], rfl, ⟨_, rfl⟩, ts, h⟩

theorem identifier_completes {L : List Token → Prop} (ts : List Token) (h : L ts) :
    Completes identifier L := by
  intro last toks e s hfail
  unfold identifier at hfail
  split at hfail <;> cases hfail
  exact ⟨[], rfl, ⟨_, rfl⟩, ts, h⟩

/-- What the machine has used when it fails, and its state then. -/
theorem exists_shiftAll?_of_error {fs : List Frame} {phase : Phase} {last : Span}
    {toks : List (Located Token)} {e : Located ParseFault} {s : Stream}
    (h : Machine.run fs phase last toks = (.error e, s)) :
    ∃ used st, toks = used ++ s.rest ∧ (∃ expected, e = s.unexpected expected) ∧
      Machine.shiftAll? fs phase (used.map Located.val) = some st := by
  have hhalt : ∀ {fs phase s₀}, Machine.run.halt fs phase s₀ = (.error e, s) →
      s = s₀ ∧ ∃ expected, e = s.unexpected expected := by
    intro fs phase s₀ hhalt
    unfold Machine.run.halt at hhalt
    split at hhalt <;> cases hhalt
    exact ⟨rfl, _, rfl⟩
  induction toks generalizing fs phase last with
  | nil =>
    obtain ⟨rfl, hblame⟩ := hhalt h
    exact ⟨[], _, rfl, hblame, rfl⟩
  | cons t ts ih =>
    rw [Machine.run] at h
    split at h
    · rename_i hshift
      obtain ⟨used, st, rfl, hblame, hst⟩ := ih h
      exact ⟨t :: used, st, rfl, hblame, by simp [hshift, hst]⟩
    · obtain ⟨rfl, hblame⟩ := hhalt h
      exact ⟨[], _, rfl, hblame, rfl⟩

theorem expression_completes :
    Completes expression fun ts => ∃ p : Phrase .expr, ts = p.tokens := by
  intro last toks e s hfail
  obtain ⟨used, ⟨fs, phase⟩, htoks, hblame, hst⟩ := exists_shiftAll?_of_error hfail
  obtain ⟨more, p, hp⟩ := Machine.exists_phrase hst
  exact ⟨used, htoks, hblame, more, p, hp⟩

/-- Any expression, to complete what lacks one. -/
def anyPhrase : Phrase .expr := .app (.atom (.name "x"))

theorem definition_completes :
    Completes definition fun ts => ∃ c : Clause, ts = c.tokens := by
  refine .bind (expect_recognizes_of_ne (by simp)) (expect_completes _ _ ⟨.bare anyPhrase, rfl⟩) ?_
  rintro - _ rfl
  refine .bind identifier_recognizes (identifier_completes _ ⟨.definition "x" anyPhrase, rfl⟩) ?_
  rintro x _ rfl
  refine .bind (expect_recognizes_of_ne (by simp)) (expect_completes _ _ ⟨.definition x anyPhrase, rfl⟩) ?_
  rintro - _ rfl
  refine .bind expression_recognizes (expression_completes.extend ?_) ?_
  · rintro _ ⟨p, rfl⟩
    exact ⟨[], .definition x p, by simp [Clause.tokens]⟩
  · rintro _ _ ⟨b, rfl, rfl⟩
    refine .get fun s => ?_
    split
    · refine .bind (expect_recognizes_of_ne (by simp)) (expect_completes _ [] ?_) ?_
      · exact ⟨.definition x b, by simp [Clause.tokens]⟩
      rintro - _ rfl
      refine .bind expression_recognizes (expression_completes.extend ?_) fun _ _ _ => .pure _
      rintro _ ⟨p, rfl⟩
      exact ⟨[], .bare (.letIn x b p), by simp [Clause.tokens, Phrase.tokens]⟩
    · exact .pure _

theorem statement_completes :
    Completes statement fun ts => ∃ c : Clause, ts = c.tokens := by
  have hbare : Completes bareExpression fun ts => ∃ c : Clause, ts = c.tokens := by
    refine .bind expression_recognizes (expression_completes.extend ?_) fun _ _ _ => .pure _
    rintro _ ⟨p, rfl⟩
    exact ⟨[], .bare p, by simp [Clause.tokens]⟩
  have hany : Completes anyStatement fun ts => ∃ c : Clause, ts = c.tokens := by
    intro last toks e s hfail
    unfold anyStatement at hfail
    split at hfail
    · exact definition_completes hfail
    · exact hbare hfail
  exact .get fun _ => .bind anyStatement_recognizes hany fun _ _ _ => .get fun _ => .pure _

theorem statements_completes : Completes statements fun ts =>
    ∃ ended cs, ts = Clause.sequence ended cs := by
  intro last toks e s hfail
  generalize hs : Stream.mk last toks = s₀ at hfail
  fun_induction statements s₀ generalizing last toks with
  | case1 s₀ hpeek => cases hfail
  | case2 s₀ hpeek e' s₁ hfirst =>
    cases hfail
    cases hs
    obtain ⟨used, htoks, hblame, more, c, hc⟩ := statement_completes hfirst
    exact ⟨used, htoks, hblame, more, false, [c], by simp [Clause.sequence, hc]⟩
  | case3 s₀ hpeek first s₁ hfirst hsemi hlt e' s₂ hmore ih =>
    cases hfail
    cases hs
    obtain ⟨used, rest, rfl, rfl, c, -, hused⟩ := statement_recognizes hfirst
    cases rest with
    | nil => cases hsemi
    | cons t rest =>
      have ht : t.val = .semicolon := hsemi
      obtain ⟨used', hrest, hblame, more, ended, cs, hcs⟩ := ih rfl hmore
      obtain ⟨ended', hseq⟩ := c.exists_sequence_cons cs ended
      have hrest : rest = used' ++ s.rest := hrest
      exact ⟨used ++ t :: used', by simp [hrest], hblame, more, ended', c :: cs,
        by simp [hseq, hused, ht, hcs]⟩
  | case4 s₀ hpeek first s₁ hfirst hsemi hlt more s₂ hmore => cases hfail
  | case5 s₀ hpeek first s₁ hfirst hsemi => cases hfail

theorem program_completes : Completes program fun ts => ∃ d : Script, ts = d.tokens := by
  have hseq : ∀ ts, (∃ ended cs, ts = Clause.sequence ended cs) → ∃ d : Script, ts = d.tokens := by
    rintro _ ⟨ended, cs, rfl⟩
    obtain ⟨d, -, hd⟩ := Script.exists_tokens_eq ended cs
    exact ⟨d, hd.symm⟩
  refine .get fun _ => .bind statements_recognizes (statements_completes.extend ?_) ?_
  · exact fun ts hts => ⟨[], by simpa using hseq ts hts⟩
  · rintro _ us ⟨ended, cs, -, hus⟩
    refine .bind (expect_recognizes _) (expect_completes _ [] ?_) fun _ _ _ => .pure _
    simpa using hseq us ⟨ended, cs, hus⟩

theorem soleExpression_completes :
    Completes soleExpression fun ts => ∃ p : Phrase .expr, ts = p.tokens := by
  refine .bind expression_recognizes expression_completes ?_
  rintro _ _ ⟨p, -, rfl⟩
  exact .bind (expect_recognizes _) (expect_completes _ [] ⟨p, by simp⟩) fun _ _ _ => .pure _

/-! ### The first token that does not fit -/

/-- Tokens up to the end of the input, which comes last and only there. -/
def Ended (ts : List Token) : Prop := ∃ us, .eof ∉ us ∧ ts = us ++ [.eof]

/-- The tokens that a reader accepts, up to the end of the input. -/
def Accepts {α : Type} (p : ParseM α) (ts : List Token) : Prop :=
  Ended ts ∧ ∃ toks : List (Located Token), toks.map Located.val = ts ∧
    ∃ a, (p (.ofTokens toks)).1 = .ok a

/-- An error is at the first of the tokens that does not fit: what comes before it can be completed to
something that is accepted, but not together with this token. It is said that the input has ended just
if it has. -/
def FirstMisfit {α : Type} (p : ParseM α) (toks : List (Located Token)) (e : Located ParseFault) :
    Prop :=
  ∃ before t after, toks = before ++ t :: after ∧ e.span = t.span ∧
    ((∃ expected, e.val = .unexpectedEnd expected) ↔ t.val = .eof) ∧
    (∃ more, Accepts p (before.map Located.val ++ more)) ∧
    ∀ ts, Accepts p ts → ¬ (before ++ [t]).map Located.val <+: ts

theorem exists_of_ended {toks : List (Located Token)} (h : Ended (toks.map Located.val)) :
    ∃ toks' place, .eof ∉ toks'.map Located.val ∧ toks = toks' ++ [⟨.eof, place⟩] := by
  obtain ⟨us, hus, hvals⟩ := h
  obtain ⟨toks', _, rfl, rfl, hend⟩ := List.map_eq_append_iff.1 hvals
  obtain ⟨⟨_, place⟩, _, rfl, rfl, hnil⟩ := List.map_eq_cons_iff.1 hend
  obtain rfl := List.map_eq_nil_iff.1 hnil
  exact ⟨toks', place, hus, rfl⟩

theorem unexpected_cons (last : Span) (t : Located Token) (ts : List (Located Token))
    (expected : String) :
    Stream.unexpected ⟨last, t :: ts⟩ expected =
      ⟨if t.val = .eof then .unexpectedEnd expected else .unexpectedToken t.val.text expected,
        t.span⟩ := by
  have hpeek : (Stream.mk last (t :: ts)).peek = t := rfl
  unfold Stream.unexpected
  rw [hpeek]
  split
  · rename_i heof
    rw [if_pos heof]
  · rename_i heof
    rw [if_neg heof]

section Exactly

variable {α : Type} {p : ParseM α} {L : List Token → Prop}

/-- A reader that accepts just the tokens of `L`. -/
def Exactly (p : ParseM α) (L : List Token → Prop) : Prop :=
  ∀ toks place, .eof ∉ toks.map Located.val →
    ((∃ a, (p (.ofTokens (toks ++ [⟨.eof, place⟩]))).1 = .ok a) ↔ L (toks.map Located.val))

theorem Exactly.accepts_iff (hp : Exactly p L) (hL : ∀ ts, L ts → .eof ∉ ts) {ts : List Token} :
    Accepts p ts ↔ ∃ us, L us ∧ ts = us ++ [.eof] := by
  constructor
  · rintro ⟨hended, toks, rfl, hok⟩
    obtain ⟨init, place, hinit, rfl⟩ := exists_of_ended hended
    exact ⟨init.map Located.val, (hp init place hinit).1 hok, by simp⟩
  · rintro ⟨us, hus, rfl⟩
    let toks : List (Located Token) := us.map fun t => ⟨t, .nowhere⟩
    have hvals : toks.map Located.val = us := by simp [toks, Function.comp_def]
    refine ⟨⟨us, hL us hus, rfl⟩, toks ++ [⟨.eof, .nowhere⟩], by simp [hvals], ?_⟩
    rw [hp toks .nowhere (by rw [hvals]; exact hL us hus), hvals]
    exact hus

/-- The places of tokens do not matter. -/
theorem Exactly.ok_of_accepts (hp : Exactly p L) (hL : ∀ ts, L ts → .eof ∉ ts)
    {toks : List (Located Token)} (h : Accepts p (toks.map Located.val)) :
    ∃ a, (p (.ofTokens toks)).1 = .ok a := by
  obtain ⟨us, hus, hvals⟩ := (hp.accepts_iff hL).1 h
  obtain ⟨init, place, hinit, rfl⟩ := exists_of_ended h.1
  obtain rfl : init.map Located.val = us := by simpa using hvals
  exact (hp init place hinit).2 hus

/-- The token that an error blames, which is never beyond the end of the input. -/
theorem exists_blamed (hL : ∀ ts, L ts → .eof ∉ ts) (hcomplete : Completes p L)
    {toks : List (Located Token)} (h : Ended (toks.map Located.val)) {e : Located ParseFault}
    (herror : (p (.ofTokens toks)).1 = .error e) :
    ∃ before t after last expected, toks = before ++ t :: after ∧
      p (.ofTokens toks) = (.error e, ⟨last, t :: after⟩) ∧
      e = Stream.unexpected ⟨last, t :: after⟩ expected ∧ ∃ more, L (before.map Located.val ++ more) := by
  have hread : p (.ofTokens toks) = (.error e, (p (.ofTokens toks)).2) := Prod.ext herror rfl
  generalize (p (.ofTokens toks)).2 = s at hread
  obtain ⟨before, htoks, ⟨expected, hblame⟩, more, hmore⟩ := hcomplete hread
  obtain ⟨last, _ | ⟨t, after⟩⟩ := s
  · -- the end of the input cannot have been used
    have heof := hL _ hmore
    obtain ⟨us, -, hvals⟩ := h
    rw [show toks = before by simpa using htoks] at hvals
    simp [hvals] at heof
  · exact ⟨before, t, after, last, expected, htoks, hread, hblame, more, hmore⟩

theorem firstMisfit (hp : Exactly p L) (hL : ∀ ts, L ts → .eof ∉ ts) (honline : Online p)
    (hcomplete : Completes p L) {toks : List (Located Token)} (h : Ended (toks.map Located.val))
    {e : Located ParseFault} (herror : (p (.ofTokens toks)).1 = .error e) : FirstMisfit p toks e := by
  obtain ⟨before, t, after, last, expected, htoks, hread, hblame, more, hmore⟩ :=
    exists_blamed hL hcomplete h herror
  rw [unexpected_cons] at hblame
  refine ⟨before, t, after, htoks, by rw [hblame], ?_, ?_, ?_⟩
  · by_cases heof : t.val = .eof <;> simp [hblame, heof]
  · exact ⟨more ++ [.eof], (hp.accepts_iff hL).2 ⟨_, hmore, by simp⟩⟩
  · rintro _ haccepts ⟨tail, rfl⟩
    let toks' : List (Located Token) := before ++ t :: tail.map fun u => ⟨u, .nowhere⟩
    have hvals : toks'.map Located.val = (before ++ [t]).map Located.val ++ tail := by
      simp [toks', Function.comp_def]
    obtain ⟨a, hok⟩ := hp.ok_of_accepts hL (hvals ▸ haccepts)
    obtain ⟨used, hused, hstop⟩ := (honline _).exists_used hread
    obtain rfl : before = used := List.append_cancel_right (htoks.symm.trans hused)
    have hfail := congrArg Prod.fst (hstop (t :: tail.map fun u => ⟨u, .nowhere⟩) rfl)
    rw [Stream.ofTokens] at hok
    cases hok.symm.trans hfail

end Exactly

theorem eof_notMem_of_script (ts : List Token) : (∃ d : Script, ts = d.tokens) → .eof ∉ ts := by
  rintro ⟨d, rfl⟩
  exact d.eof_notMem_tokens

theorem program_exactly : Exactly program fun ts => ∃ d : Script, ts = d.tokens := by
  intro toks place h
  constructor
  · rintro ⟨p, hp⟩
    obtain ⟨d, hd, -⟩ := (program_ok_iff h).1 ⟨p, hp, rfl⟩
    exact ⟨d, hd.symm⟩
  · rintro ⟨d, hd⟩
    obtain ⟨p, hp, -⟩ := (program_ok_iff h).2 ⟨d, hd.symm, rfl⟩
    exact ⟨p, hp⟩

theorem soleExpression_exactly : Exactly soleExpression fun ts => ∃ p : Phrase .expr, ts = p.tokens := by
  intro toks place h
  constructor
  · rintro ⟨e, he⟩
    obtain ⟨p, hp, -⟩ := (soleExpression_ok_iff h).1 he
    exact ⟨p, hp.symm⟩
  · rintro ⟨p, hp⟩
    exact ⟨p.expr, (soleExpression_ok_iff h).2 ⟨p, hp.symm, rfl⟩⟩

/-- **Errors are at the first token that does not fit**, for tokens up to the end of the input. If they
are no program, the error is at a token such that what comes before it begins an accepted program, and
with the token it begins none any more. If they are no expression, the same holds of expressions; those
that are accepted are the ones that the grammar derives. -/
theorem error_at_first_misfit (toks : List (Located Token)) (h : Ended (toks.map Located.val)) :
    (∀ e, (program (.ofTokens toks)).1 = .error e → FirstMisfit program toks e) ∧
    (∀ e, (soleExpression (.ofTokens toks)).1 = .error e → FirstMisfit soleExpression toks e) ∧
    ∀ ts, Accepts soleExpression ts ↔ ∃ p : Phrase .expr, ts = p.tokens ++ [.eof] := by
  have hphrases : ∀ ts, (∃ p : Phrase .expr, ts = p.tokens) → .eof ∉ ts := by
    rintro _ ⟨p, rfl⟩
    exact p.eof_notMem_tokens
  refine ⟨fun e he => ?_, fun e he => ?_, fun ts => ?_⟩
  · exact firstMisfit program_exactly eof_notMem_of_script online_program program_completes h he
  · exact firstMisfit soleExpression_exactly hphrases online_soleExpression soleExpression_completes h he
  · rw [soleExpression_exactly.accepts_iff hphrases]
    constructor
    · rintro ⟨_, ⟨p, rfl⟩, rfl⟩
      exact ⟨p, rfl⟩
    · rintro ⟨p, rfl⟩
      exact ⟨p.tokens, ⟨p, rfl⟩, rfl⟩

/-- `x; )` is no program because of the bracket, and no expression because of the semicolon. -/
theorem error_at_first_misfit_semicolon :
    let toks : List (Located Token) :=
      [⟨.ident "x", 0, 1⟩, ⟨.semicolon, 1, 2⟩, ⟨.rparen, 3, 4⟩, ⟨.eof, 4, 4⟩]
    let e₁ : Located ParseFault := ⟨.unexpectedToken ")" "expression", 3, 4⟩
    let e₂ : Located ParseFault := ⟨.unexpectedToken ";" "'end of input'", 1, 2⟩
    Ended (toks.map Located.val) ∧
      (program (.ofTokens toks)).1 = .error e₁ ∧ FirstMisfit program toks e₁ ∧
      (soleExpression (.ofTokens toks)).1 = .error e₂ ∧ FirstMisfit soleExpression toks e₂ := by
  intro toks e₁ e₂
  have hended : Ended (toks.map Located.val) := ⟨[.ident "x", .semicolon, .rparen], by simp, rfl⟩
  have hprogram : (program (.ofTokens toks)).1 = .error e₁ := by decide +kernel
  have hexpression : (soleExpression (.ofTokens toks)).1 = .error e₂ := by decide +kernel
  obtain ⟨hfirst, hsecond, -⟩ := error_at_first_misfit toks hended
  exact ⟨hended, hprogram, hfirst e₁ hprogram, hexpression, hsecond e₂ hexpression⟩

end Parser

end LetPoly
