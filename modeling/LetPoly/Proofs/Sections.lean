import LetPoly.Proofs.RoundTrip
import LetPoly.Proofs.Slices
import LetPoly.Proofs.Unambiguity

/-!
# Statements and the text they are read from

The tokens of a program fall into sections, one for each statement, with semicolons between them
(`Parser.Sections`). A statement's place is that of its section, from the beginning of the first token
to the end of the last. Tokens follow one another through the text, and so do the statements. The text
at such a place has the tokens of the section and no others, so reading it gives the statement again.
-/

namespace LetPoly

namespace Parser

/-- Tokens that are read as a statement, which goes from the first of them to the last. -/
def Covers (toks : List (Located Token)) (s : Located Statement) : Prop :=
  ∃ t ts, toks = t :: ts ∧ s.span = ⟨t.span.start, (lastSpan t.span ts).stop⟩ ∧
    ∃ c : Clause, c.statement = s.val ∧ toks.map Located.val = c.tokens

/-- Tokens of statements, which the semicolons between them belong to none of. -/
inductive Sections : List (Located Token) → List (Located Statement) → Prop where
  | nil : Sections [] []
  | last {toks : List (Located Token)} {s : Located Statement} (h : Covers toks s) : Sections toks [s]
  | cons {toks more : List (Located Token)} {s : Located Statement} {ss : List (Located Statement)}
      {t : Located Token} (h : Covers toks s) (ht : t.val = .semicolon) (hmore : Sections more ss) :
    Sections (toks ++ t :: more) (s :: ss)

/-! ### Reading leaves sections -/

theorem span_statement {s s' : Stream} {st : Located Statement} (h : statement s = (.ok st, s')) :
    st.span = ⟨s.peek.span.start, s'.last.stop⟩ := by
  rw [statement, get_bind] at h
  obtain ⟨v, s'', hread, -⟩ := exists_of_bind_ok (congrArg Prod.fst h)
  rw [bind_of_ok hread, get_bind] at h
  cases h
  rfl

theorem covers_of_statement {last : Span} {toks : List (Located Token)} {st : Located Statement}
    {s : Stream} (h : statement ⟨last, toks⟩ = (.ok st, s)) :
    ∃ used, toks = used ++ s.rest ∧ Covers used st := by
  have hspan := span_statement h
  obtain ⟨used, rest, rfl, rfl, c, hc, hused⟩ := statement_recognizes h
  obtain ⟨t, ts, hfirst⟩ := c.exists_tokens_cons
  obtain ⟨t, ts, rfl, -⟩ := List.map_eq_cons_iff.1 (hused.trans hfirst)
  exact ⟨t :: ts, rfl, t, ts, rfl, hspan, c, hc, hused⟩

/-- **What is read as statements falls into their sections.** -/
theorem exists_sections {last : Span} {toks : List (Located Token)} {ss : List (Located Statement)}
    {s : Stream} (h : statements ⟨last, toks⟩ = (.ok ss, s)) :
    ∃ used, toks = used ++ s.rest ∧ Sections used ss := by
  generalize hs : Stream.mk last toks = s₀ at h
  fun_induction statements s₀ generalizing last toks ss with
  | case1 s₀ hpeek =>
    cases h
    cases hs
    exact ⟨[], rfl, .nil⟩
  | case2 s₀ hpeek e s₁ hfirst => cases h
  | case3 s₀ hpeek first s₁ hfirst hsemi hlt e s₂ hmore => cases h
  | case4 s₀ hpeek first s₁ hfirst hsemi hlt more s₂ hmore ih =>
    cases h
    cases hs
    obtain ⟨used, rfl, hcovers⟩ := covers_of_statement hfirst
    obtain ⟨last₁, _ | ⟨t, rest⟩⟩ := s₁
    · cases hsemi
    · obtain ⟨used', hrest, hsections⟩ := ih rfl hmore
      have hrest : rest = used' ++ s.rest := hrest
      exact ⟨used ++ t :: used', by simp [hrest], .cons hcovers hsemi hsections⟩
  | case5 s₀ hpeek first s₁ hfirst hsemi =>
    cases h
    cases hs
    obtain ⟨used, htoks, hcovers⟩ := covers_of_statement hfirst
    exact ⟨used, htoks, .last hcovers⟩

theorem exists_lastSpan_eq (t : Located Token) (ts : List (Located Token)) :
    ∃ u ∈ t :: ts, lastSpan t.span ts = u.span := by
  induction ts generalizing t with
  | nil => exact ⟨t, by simp, rfl⟩
  | cons u ts ih =>
    obtain ⟨v, hv, heq⟩ := ih u
    exact ⟨v, List.mem_cons_of_mem t hv, heq⟩

namespace Covers

variable {toks : List (Located Token)} {s : Located Statement}

theorem eof_notMem (h : Covers toks s) : .eof ∉ toks.map Located.val := by
  obtain ⟨t, ts, -, -, c, -, hvals⟩ := h
  rw [hvals]
  exact c.eof_notMem_tokens

theorem exists_start_eq (h : Covers toks s) : ∃ t ∈ toks, s.span.start = t.span.start := by
  obtain ⟨t, ts, rfl, hspan, -⟩ := h
  exact ⟨t, by simp, by rw [hspan]⟩

theorem exists_stop_eq (h : Covers toks s) : ∃ t ∈ toks, s.span.stop = t.span.stop := by
  obtain ⟨t, ts, rfl, hspan, -⟩ := h
  obtain ⟨u, hu, hlast⟩ := exists_lastSpan_eq t ts
  exact ⟨u, hu, by rw [hspan, hlast]⟩

end Covers

namespace Sections

variable {toks : List (Located Token)} {ss : List (Located Statement)}

theorem eof_notMem (h : Sections toks ss) : .eof ∉ toks.map Located.val := by
  induction h with
  | nil => simp
  | last h => exact h.eof_notMem
  | cons h ht _ ih =>
    rw [List.map_append, List.map_cons, ht, List.mem_append, List.mem_cons, not_or, not_or]
    exact ⟨h.eof_notMem, by simp, ih⟩

/-- Each statement has a section of its own. -/
theorem exists_covers (h : Sections toks ss) {s : Located Statement} (hs : s ∈ ss) :
    ∃ before mid after, toks = before ++ mid ++ after ∧ Covers mid s := by
  induction h with
  | nil => cases hs
  | @last toks s' h =>
    obtain rfl := List.mem_singleton.1 hs
    exact ⟨[], toks, [], by simp, h⟩
  | @cons toks more s' ss t h _ _ ih =>
    rcases List.mem_cons.1 hs with rfl | hs
    · exact ⟨[], toks, t :: more, by simp, h⟩
    · obtain ⟨before, mid, after, rfl, hmid⟩ := ih hs
      exact ⟨toks ++ t :: before, mid, after, by simp, hmid⟩

/-- Statements follow one another as their tokens do. -/
theorem pairwise_span (h : Sections toks ss)
    (htoks : toks.Pairwise fun t u => t.span.stop ≤ u.span.start) :
    (ss.map Located.span).Pairwise fun s t => s.stop ≤ t.start := by
  induction h with
  | nil => exact .nil
  | last h => exact List.pairwise_singleton _ _
  | @cons toks more s ss t h _ hmore ih =>
    obtain ⟨-, hrest, hbetween⟩ := List.pairwise_append.1 htoks
    refine List.pairwise_cons.2 ⟨fun span hspan => ?_, ih (List.pairwise_cons.1 hrest).2⟩
    obtain ⟨s', hs', rfl⟩ := List.mem_map.1 hspan
    obtain ⟨before, mid, after, rfl, hmid⟩ := hmore.exists_covers hs'
    obtain ⟨u, hu, hstop⟩ := h.exists_stop_eq
    obtain ⟨v, hv, hstart⟩ := hmid.exists_start_eq
    rw [hstop, hstart]
    exact hbetween u hu v (by simp [hv])

/-- The first statement begins with the first token. -/
theorem start_eq (h : Sections toks ss) {s : Located Statement} (hs : ss.head? = some s)
    (last : Span) (rest : List (Located Token)) :
    s.span.start = (Stream.mk last (toks ++ rest)).peek.span.start := by
  cases h with
  | nil => cases hs
  | last h | cons h =>
    obtain rfl := Option.some.inj hs
    obtain ⟨t, ts, rfl, hspan, -⟩ := h
    rw [hspan]
    rfl

end Sections

end Parser

/-! ### Sections of a text -/

theorem pairwise_of_tokenize {source : String} {toks : List (Located Token)}
    {last : Located Token} (h : tokenize source = .ok (toks ++ [last])) :
    toks.Pairwise fun t u => t.span.stop ≤ u.span.start := by
  obtain ⟨rs, htiling, hreadings, -⟩ := Cursor.exists_tiling (Lexer.Parted.nil source.toList)
  have hread : (Cursor.ofString source).readings = (toks ++ [last]).map .ok := tokenize_eq_ok_iff.1 h
  have hrs : rs = toks.map .ok := by
    rw [Cursor.ofString] at hread
    rw [utf8Length_nil, hread, List.map_append] at hreadings
    exact (List.append_inj_left' hreadings rfl).symm
  have hspans : rs.map Reading.span = toks.map Located.span := by
    rw [hrs, List.map_map]
    rfl
  have hpairwise := htiling.pairwise_span
  rw [hspans, List.pairwise_map] at hpairwise
  exact hpairwise

/-- The tokens of a program that was read, up to the end of its text. -/
theorem Program.exists_sections {source : String} {p : Program} (h : Program.parse source = .ok p) :
    ∃ toks last, tokenize source = .ok (toks ++ [last]) ∧ Parser.Sections toks p.statements ∧
      ∀ first ∈ p.statements.head?, ∀ final ∈ p.statements.getLast?,
        p.span = ⟨first.span.start, final.span.stop⟩ := by
  obtain ⟨all, htokens, hread⟩ := parse_eq_ok_iff.1 h
  obtain ⟨toks, rfl, heof⟩ := exists_of_tokenize htokens
  rw [Parser.program, Parser.get_bind] at hread
  obtain ⟨ss, s, hss, hread⟩ := Parser.exists_of_bind_ok hread
  obtain ⟨_, s', hend, hread⟩ := Parser.exists_of_bind_ok hread
  obtain ⟨used, htoks, hsections⟩ := Parser.exists_sections hss
  have hused := Parser.used_eq htoks heof hsections.eof_notMem
    (Parser.peek_of_expect_ok (congrArg Prod.fst hend))
  obtain ⟨rfl, -⟩ := List.append_inj htoks (by simpa using (congrArg List.length hused).symm)
  obtain rfl := Except.ok.inj hread
  refine ⟨toks, _, htokens, hsections, fun first hfirst final hfinal => ?_⟩
  rw [hsections.start_eq hfirst .nowhere _, Option.mem_def.1 hfinal]
  rfl

namespace Parser

/-- Tokens of a single statement are read as a program of that statement. -/
theorem program_clause (c : Clause) {t : Located Token} {ts : List (Located Token)}
    (h : (t :: ts).map Located.val = c.tokens) (place : Span) :
    ∃ p : Program, (program (.ofTokens (t :: ts ++ [⟨.eof, place⟩]))).1 = .ok p ∧
      p.statements = [⟨c.statement, t.span.start, (lastSpan t.span ts).stop⟩] := by
  have hnext : nextToken [⟨.eof, place⟩] = .eof := rfl
  obtain ⟨s, hs, hread⟩ := statement_clause .nowhere c h (.inr hnext)
  have hspan := span_statement hread
  have hfirst : nextToken (t :: ts ++ [⟨.eof, place⟩]) ≠ .eof :=
    c.nextToken_ne_eof (h.trans (List.append_nil _).symm)
  have hstatements : statements (.ofTokens (t :: ts ++ [⟨.eof, place⟩])) =
      (.ok [s], ⟨lastSpan t.span ts, [⟨.eof, place⟩]⟩) := by
    rw [statements_eq, Stream.ofTokens, peek_val, if_neg hfirst, hread]
    simp [hnext]
  obtain rfl : s = ⟨c.statement, t.span.start, (lastSpan t.span ts).stop⟩ := by
    obtain ⟨v, span⟩ := s
    rw [show v = c.statement from hs, show span = _ from hspan]
    rfl
  have hexpect : expect .eof ⟨lastSpan t.span ts, [⟨.eof, place⟩]⟩ = (.ok (), ⟨place, []⟩) :=
    expect_cons rfl
  rw [program, get_bind, bind_of_ok hstatements, bind_of_ok hexpect]
  exact ⟨_, rfl, rfl⟩

end Parser

theorem lastSpan_shift (n : Nat) (last : Span) (ts : List (Located Token)) :
    lastSpan (last.shift n) (ts.map (Located.shift n)) = (lastSpan last ts).shift n := by
  induction ts generalizing last with
  | nil => rfl
  | cons t ts ih => exact ih t.span

/-- The text of a section is read as its statement and nothing else. -/
theorem Parser.Covers.exists_parse {source : String} {before toks after : List (Located Token)}
    {s : Located Statement} (h : Covers toks s)
    (htokens : tokenize source = .ok (before ++ toks ++ after)) (hafter : after ≠ []) :
    ∃ pre mid post, s.span.Cuts source.toList pre mid post ∧ mid ≠ [] ∧
      ∃ q, Program.parse (String.ofList mid) = .ok q ∧ q.statements = [⟨s.val, 0, utf8Length mid⟩] := by
  obtain ⟨t, ts, rfl, hspan, c, hc, hvals⟩ := h
  obtain ⟨pre, mid, post, hcut, hmid, us, hus, hshift⟩ := exists_tokenize_slice htokens hafter
  obtain ⟨u, us, rfl, rfl, rfl⟩ := List.map_eq_cons_iff.1 hshift
  have hsame : (u :: us).map Located.val = c.tokens := by
    rw [← hvals, ← List.map_cons, List.map_map]
    rfl
  obtain ⟨q, hq, hstatements⟩ := program_clause c hsame ⟨utf8Length mid, utf8Length mid⟩
  refine ⟨pre, mid, post, hspan ▸ hcut, hmid, q, parse_eq_ok_iff.2 ⟨_, hus, hq⟩, ?_⟩
  have hstart : u.span.start = 0 := by
    have := hcut.start_eq
    simp only [Located.shift, Span.shift] at this
    omega
  have hstop : (lastSpan u.span us).stop = utf8Length mid := by
    have := hcut.stop_eq
    rw [Located.shift, lastSpan_shift, utf8Length_append] at this
    simp only [Span.shift] at this
    omega
  rw [hstatements, hc, hstart, hstop]

/-- **The places of statements delimit them exactly.** In a program that was read from a text, the places
of statements are not empty, lie in the text at the borders of characters and follow one another. The
text at such a place is itself read as a program of one statement, the same one, that takes up all of it.
The place of a program that has statements goes from the beginning of the first to the end of the
last. -/
theorem Program.statements_delimited {source : String} {p : Program}
    (h : Program.parse source = .ok p) :
    (∀ s ∈ p.statements, s.span.start < s.span.stop ∧ s.span.Within source ∧
      ∃ q, Program.parse (s.span.text source) = .ok q ∧
        q.statements = [⟨s.val, 0, (s.span.text source).utf8ByteSize⟩]) ∧
    ((p.statements.map Located.span).Pairwise fun s t => s.stop ≤ t.start) ∧
    ∀ first ∈ p.statements.head?, ∀ last ∈ p.statements.getLast?,
      p.span = ⟨first.span.start, last.span.stop⟩ := by
  obtain ⟨toks, final, htokens, hsections, hspan⟩ := Program.exists_sections h
  refine ⟨fun s hs => ?_, hsections.pairwise_span (pairwise_of_tokenize htokens), hspan⟩
  obtain ⟨before, mid, after, rfl, hcovers⟩ := hsections.exists_covers hs
  rw [List.append_assoc] at htokens
  obtain ⟨pre, mid, post, hcut, hmid, q, hq, hstatements⟩ := hcovers.exists_parse htokens (by simp)
  refine ⟨hcut.start_lt_stop hmid, hcut.within, q, ?_, ?_⟩
  · rw [hcut.text_eq]
    exact hq
  · rw [hcut.text_eq, ← utf8Length_toList, String.toList_ofList]
    exact hstatements

/-- A comment before the first statement is outside of its place, one within the second inside. -/
theorem Program.statements_delimited_comments : ∃ p : Program,
    Program.parse "-- λ\n let k = λx -> x; k -- λ\n 1" = .ok p ∧
      p.statements.map Located.span = [⟨7, 23⟩, ⟨25, 35⟩] ∧
      (∀ s ∈ p.statements, ∃ q,
        Program.parse (s.span.text "-- λ\n let k = λx -> x; k -- λ\n 1") = .ok q ∧
          q.statements =
            [⟨s.val, 0, (s.span.text "-- λ\n let k = λx -> x; k -- λ\n 1").utf8ByteSize⟩]) ∧
      (p.statements.map (·.span.text "-- λ\n let k = λx -> x; k -- λ\n 1")) =
        ["let k = λx -> x", "k -- λ\n 1"] ∧
      p.span = ⟨7, 35⟩ := by
  let first : Located Statement := ⟨⟨some "k", .abs "x" (.var "x")⟩, 7, 23⟩
  let second : Located Statement := ⟨⟨none, .app (.var "k") (.lit (.int 1))⟩, 25, 35⟩
  have hsome : (Program.parse "-- λ\n let k = λx -> x; k -- λ\n 1").toOption =
      some ⟨[first, second], 7, 35⟩ := by
    decide +kernel
  have h : Program.parse "-- λ\n let k = λx -> x; k -- λ\n 1" = .ok ⟨[first, second], 7, 35⟩ := by
    generalize Program.parse _ = r at hsome
    cases r with
    | error e => cases hsome
    | ok q => exact congrArg Except.ok (Option.some.inj hsome)
  obtain ⟨hread, -, hspan⟩ := Program.statements_delimited h
  exact ⟨_, h, rfl, fun s hs => (hread s hs).2.2, by decide +kernel, hspan first rfl second rfl⟩

end LetPoly
