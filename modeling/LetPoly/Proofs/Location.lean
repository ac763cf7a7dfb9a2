import LetPoly.Proofs.Blame
import LetPoly.Proofs.Generalization
import LetPoly.Proofs.Sections

/-!
# Where errors are

Errors come from three stages, each of which finds the place of its errors in its own way: reading
tokens, reading statements, and checking them. Whatever the stage, the text at the place of an error is
what the error is about (`Blamed`). In particular a reader of statements never looks beyond the end of
the input, where it would have to make a place up.
-/

namespace LetPoly

/-- What an error in a source text says about the place that it blames. -/
inductive Blamed (policy : LetPolicy) (source : String) (span : Span) : Fault → Prop where
  | unexpectedCharacter {c : Char} : span.text source = String.singleton c →
    Blamed policy source span (.lexical (.unexpectedCharacter c))
  /-- A numeral, as long as it can be, of too large a number. -/
  | invalidNumber {digits : String} : span.text source = digits →
    Lexer.Longest Lexer.isNumeral (span.before source).toList digits.toList
      (span.after source).toList →
    Lexer.maxInt < Nat.ofDigitChars 10 digits.toList 0 →
    Blamed policy source span (.lexical (.invalidNumber digits))
  /-- A token, which is what the text at its place is read as. -/
  | unexpectedToken {t : Token} {expected : String} {before after : List (Located Token)} :
    t ≠ .eof → tokenize source = .ok (before ++ ⟨t, span⟩ :: after) →
    tokenize (span.text source) = .ok [⟨t, 0, (span.text source).utf8ByteSize⟩,
      ⟨.eof, (span.text source).utf8ByteSize, (span.text source).utf8ByteSize⟩] →
    Blamed policy source span (.grammatical (.unexpectedToken t.text expected))
  | unexpectedEnd {expected : String} {toks : List (Located Token)} : tokenize source = .ok toks →
    span = ⟨source.utf8ByteSize, source.utf8ByteSize⟩ →
    Blamed policy source span (.grammatical (.unexpectedEnd expected))
  /-- The first statement that has no type. -/
  | typing {e : TypeError} {p : Program} {before after : List (Located Statement)}
      {s : Located Statement} {js : List Judgement} : Program.parse source = .ok p →
    p.statements = before ++ s :: after → span = s.span →
    (check policy .primitives before).result = .ok js →
    (inferType policy (Env.primitives.after js) s.val.expr).result = .error e →
    Blamed policy source span (.typing e)

/-! ### Tokens -/

theorem mem_of_mapM_id_eq_error {ε α : Type} {rs : List (Except ε α)} {e : ε}
    (h : rs.mapM id = .error e) : .error e ∈ rs := by
  induction rs with
  | nil => cases h
  | cons r rs ih =>
    rw [List.mapM_cons] at h
    cases r with
    | error e' =>
      obtain rfl : e' = e := Except.error.inj h
      exact List.mem_cons_self
    | ok a =>
      refine List.mem_cons_of_mem _ (ih ?_)
      cases hrs : rs.mapM id with
      | error e' =>
        rw [hrs] at h
        exact h
      | ok as =>
        rw [hrs] at h
        cases h

theorem exists_spells_of_tokenize {source : String} {f : Located LexFault}
    (h : tokenize source = .error f) :
    ∃ pre mid post, f.span.Cuts source.toList pre mid post ∧
      Lexer.Spells pre mid post (.error f.val) := by
  obtain ⟨rs, htiling, hreadings, -⟩ := Cursor.exists_tiling (Lexer.Parted.nil source.toList)
  have hmem := mem_of_mapM_id_eq_error h
  rw [Cursor.ofString, ← utf8Length_nil, hreadings, List.mem_append, List.mem_singleton] at hmem
  obtain hmem | hend := hmem
  · obtain ⟨-, pre, mid, post, hcut, -, hspells⟩ := htiling.exists_spells _ hmem
    exact ⟨pre, mid, post, hcut, hspells⟩
  · cases hend

/-- The text of a token is read as this token only. -/
theorem exists_tokenize_token {source : String} {before after : List (Located Token)}
    {t : Located Token} (h : tokenize source = .ok (before ++ t :: after)) (hafter : after ≠ []) :
    ∃ pre mid post, t.span.Cuts source.toList pre mid post ∧
      tokenize (String.ofList mid) =
        .ok [⟨t.val, 0, utf8Length mid⟩, ⟨.eof, utf8Length mid, utf8Length mid⟩] := by
  rw [← List.singleton_append, ← List.append_assoc] at h
  obtain ⟨pre, mid, post, hcut, -, ts, hread, hshift⟩ := exists_tokenize_slice h hafter
  obtain ⟨u, _, rfl, rfl, hnil⟩ := List.map_eq_cons_iff.1 hshift
  obtain rfl := List.map_eq_nil_iff.1 hnil
  obtain ⟨v, start, stop⟩ := u
  have hstart := hcut.start_eq
  have hstop := hcut.stop_eq
  simp only [Located.shift, Span.shift, lastSpan, List.foldl_nil, utf8Length_append] at hstart hstop
  obtain rfl : start = 0 := by omega
  obtain rfl : stop = utf8Length mid := by omega
  exact ⟨pre, mid, post, hcut, hread⟩

/-! ### Stages -/

theorem Span.cuts_end (source : String) :
    Span.Cuts ⟨source.utf8ByteSize, source.utf8ByteSize⟩ source.toList source.toList [] [] where
  source_eq := by simp
  start_eq := (utf8Length_toList source).symm
  stop_eq := by rw [List.append_nil, utf8Length_toList]

section

variable {policy : LetPolicy} {source : String} {err : Error}

theorem blamed_of_tokenize {f : Located LexFault} (h : tokenize source = .error f) :
    ∃ pre mid post, f.span.Cuts source.toList pre mid post ∧
      Blamed policy source f.span (.lexical f.val) := by
  obtain ⟨pre, mid, post, hcut, hspells⟩ := exists_spells_of_tokenize h
  refine ⟨pre, mid, post, hcut, ?_⟩
  generalize hv : f.val = v at hspells
  cases hspells with
  | tooLarge hlongest hlarge =>
    refine .invalidNumber hcut.text_eq ?_ (by simpa using hlarge)
    simpa [hcut.before_eq, hcut.after_eq] using hlongest
  | @unexpected c hmid =>
    refine .unexpectedCharacter ?_
    rw [hcut.text_eq, hmid]
    rfl

theorem blamed_of_program {toks : List (Located Token)} (htokens : tokenize source = .ok toks)
    {f : Located ParseFault} (h : (Parser.program (.ofTokens toks)).1 = .error f) :
    ∃ pre mid post, f.span.Cuts source.toList pre mid post ∧
      Blamed policy source f.span (.grammatical f.val) := by
  obtain ⟨body, rfl, heof⟩ := exists_of_tokenize htokens
  obtain ⟨before, t, after, last, expected, htoks, -, rfl, -⟩ :=
    Parser.exists_blamed Parser.eof_notMem_of_script Parser.program_completes
      ⟨body.map Located.val, heof, by simp⟩ h
  rw [Parser.unexpected_cons]
  -- the blamed token is the end of the input, or it comes before it
  rcases List.eq_nil_or_concat after with rfl | ⟨after, final, rfl⟩
  · obtain ⟨-, hlast⟩ := List.append_inj' htoks rfl
    obtain rfl := List.singleton_inj.1 hlast
    exact ⟨_, _, _, Span.cuts_end source, .unexpectedEnd htokens rfl⟩
  · rw [List.concat_eq_append, ← List.cons_append, ← List.append_assoc] at htoks
    obtain ⟨rfl, -⟩ := List.append_inj' htoks rfl
    have ht : t.val ≠ .eof := fun hend => heof (by simp [hend])
    rw [List.append_assoc, List.cons_append] at htokens
    obtain ⟨pre, mid, post, hcut, hread⟩ := exists_tokenize_token htokens (by simp)
    refine ⟨pre, mid, post, hcut, ?_⟩
    rw [if_neg ht]
    refine .unexpectedToken ht htokens ?_
    rw [hcut.text_eq, ← utf8Length_toList, String.toList_ofList]
    exact hread

/-- The first statement that has no type ends a check. -/
theorem exists_of_check_error {ss : List (Located Statement)} {Γ : Env}
    (h : (check policy Γ ss).result = .error err) :
    ∃ before s after js e, ss = before ++ s :: after ∧ (check policy Γ before).result = .ok js ∧
      (inferType policy (Γ.after js) s.val.expr).result = .error e ∧ err = ⟨.typing e, s.span⟩ := by
  induction ss generalizing Γ with
  | nil => cases h
  | cons s ss ih =>
    rw [result_check_cons] at h
    cases hrun : (inferType policy Γ s.val.expr).result with
    | error e =>
      rw [hrun] at h
      exact ⟨[], s, ss, [], e, rfl, rfl, hrun, (Except.error.inj h).symm⟩
    | ok t =>
      simp only [hrun] at h
      cases hrest : (check policy (Γ.define s.val.name (Γ.generalize t)) ss).result with
      | ok js =>
        rw [hrest] at h
        cases h
      | error err' =>
        rw [hrest] at h
        obtain rfl : err' = err := Except.error.inj h
        obtain ⟨before, s', after, js, e, rfl, hbefore, he, herr⟩ := ih hrest
        refine ⟨s :: before, s', after, ⟨s.val.name, Γ.generalize t⟩ :: js, e, rfl, ?_, he, herr⟩
        rw [result_check_cons, hrun]
        simp only [hbefore]
        rfl

theorem blamed_of_check {p : Program} (hp : Program.parse source = .ok p)
    (h : (check policy .primitives p.statements).result = .error err) :
    ∃ pre mid post, err.span.Cuts source.toList pre mid post ∧
      Blamed policy source err.span err.val := by
  obtain ⟨before, s, after, js, e, hss, hbefore, he, rfl⟩ := exists_of_check_error h
  obtain ⟨toks, final, htokens, hsections, -⟩ := Program.exists_sections hp
  have hs : s ∈ p.statements := by simp [hss]
  obtain ⟨before', used, after', rfl, hcovers⟩ := hsections.exists_covers hs
  rw [List.append_assoc] at htokens
  obtain ⟨pre, mid, post, hcut, -⟩ := hcovers.exists_parse htokens (by simp)
  exact ⟨pre, mid, post, hcut, .typing hp hss rfl hbefore he⟩

/-- Errors of all stages. -/
theorem blamed_of_checkSource (h : (checkSource policy source).result = .error err) :
    ∃ pre mid post, err.span.Cuts source.toList pre mid post ∧
      Blamed policy source err.span err.val := by
  unfold checkSource Program.parse parse tokensOf at h
  cases htokens : tokenize source with
  | error f =>
    rw [htokens] at h
    obtain rfl := Except.error.inj h
    exact blamed_of_tokenize htokens
  | ok toks =>
    cases hread : (Parser.program (.ofTokens toks)).1 with
    | error f =>
      simp only [htokens, hread, Except.mapError, bind, Except.bind] at h
      obtain rfl := Except.error.inj h
      exact blamed_of_program htokens hread
    | ok p =>
      simp only [htokens, hread, Except.mapError, bind, Except.bind] at h
      exact blamed_of_check (parse_eq_ok_iff.2 ⟨toks, htokens, hread⟩) h

end

/-- **Errors blame the right text.** Whichever stage an error of a source text comes from, its place lies
in the text at the borders of characters. An unexpected character stands there alone. An invalid number
is a numeral there, as long as it can be, and larger than the largest integer. An unexpected token is
what the text there is read as, and its only token. An unexpected end is the end of the text. A type
error is at the first statement that has no type, after statements that are accepted. -/
theorem checkSource_error_blamed {policy : LetPolicy} {source : String} {err : Error}
    (h : (checkSource policy source).result = .error err) :
    err.span.Within source ∧ Blamed policy source err.span err.val := by
  obtain ⟨pre, mid, post, hcut, hblamed⟩ := blamed_of_checkSource h
  exact ⟨hcut.within, hblamed⟩

/-- The second `=` is one token, and `y` the first statement without a type. -/
theorem checkSource_error_blamed_after_lambda :
    let e₁ : Error := ⟨.grammatical (.unexpectedToken "=" "expression"), 15, 16⟩
    let e₂ : Error := ⟨.typing (.unboundVariable "y"), 18, 19⟩
    (checkSource .generalize "let f = λx -> = x").result = .error e₁ ∧
      Blamed .generalize "let f = λx -> = x" e₁.span e₁.val ∧
      (checkSource .generalize "let f = λx -> x; y; z").result = .error e₂ ∧
      Blamed .generalize "let f = λx -> x; y; z" e₂.span e₂.val := by
  intro e₁ e₂
  have h₁ : (checkSource .generalize "let f = λx -> = x").result = .error e₁ := by decide +kernel
  have h₂ : (checkSource .generalize "let f = λx -> x; y; z").result = .error e₂ := by decide +kernel
  exact ⟨h₁, (checkSource_error_blamed h₁).2, h₂, (checkSource_error_blamed h₂).2⟩

end LetPoly
