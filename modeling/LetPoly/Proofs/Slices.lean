import LetPoly.Proofs.Grammar
import LetPoly.Proofs.Lines

/-!
# A part of a text is read as in the whole

What is read first is settled by the characters it takes: a shorter text that still has them is read
alike (`Cursor.next_cut`). So a text may be cut off behind any of its tokens without a change to those
before (`Cursor.exists_cut`). The part of a text from the beginning of one token to the end of another
has just the tokens between them (`exists_tokenize_slice`).
-/

namespace LetPoly

/-! ### Cutting off a text -/

namespace Lexer

variable {cs ds : List Char}

theorem takeWhile_cut {p : Char → Bool} (h : ((cs ++ ds).takeWhile p).length ≤ cs.length) :
    (cs ++ ds).takeWhile p = cs.takeWhile p := by
  rw [List.takeWhile_append] at h ⊢
  split at h
  · rename_i hall
    have hnone : ds.takeWhile p = [] := List.eq_nil_of_length_eq_zero (by
      rw [List.length_append] at h
      omega)
    rw [if_pos hall, hnone, List.append_nil]
    exact ((List.takeWhile_prefix p).eq_of_length hall).symm
  · rename_i hsome
    rw [if_neg hsome]

/-- What is passed before a token does not depend on what comes behind the token. -/
theorem blankLength_cut {inComment : Bool} (h : blankLength inComment (cs ++ ds) < cs.length) :
    blankLength inComment (cs ++ ds) = blankLength inComment cs := by
  induction cs generalizing inComment with
  | nil => simp at h
  | cons c cs ih =>
    simp only [List.cons_append, blankLength, List.length_cons] at h ⊢
    by_cases hcs : cs = []
    · subst hcs
      grind [blankLength]
    · rw [List.head?_append_of_ne_nil cs hcs] at h ⊢
      grind

/-- Nor does the token. -/
theorem lexeme_cut (hcs : cs ≠ []) (h : (lexeme (cs ++ ds)).1 ≤ cs.length) :
    lexeme (cs ++ ds) = lexeme cs := by
  cases cs with
  | nil => exact absurd rfl hcs
  | cons c cs =>
    simp only [List.cons_append, lexeme] at h ⊢
    cases hsymbol : Token.ofSymbol? c with
    | some t => rfl
    | none =>
      simp only [hsymbol, List.length_cons] at h ⊢
      have harrow : c = '-' ∧ (cs ++ ds).head? = some '>' ↔ c = '-' ∧ cs.head? = some '>' := by
        by_cases hnil : cs = []
        · subst hnil
          simp only [List.head?_nil, reduceCtorEq, and_false, iff_false]
          intro hboth
          rw [if_pos hboth] at h
          simp at h
        · rw [List.head?_append_of_ne_nil cs hnil]
      simp only [harrow] at h ⊢
      split_ifs at h ⊢
      · rfl
      · rw [takeWhile_cut (by simpa using h)]
      · rw [takeWhile_cut (by simpa using h)]
      · rfl

end Lexer

namespace Cursor

theorem span_next (c : Cursor) : c.next.1.span = ⟨c.skipBlanks.offset, c.next.2.offset⟩ := by
  rw [next_eq, Reading.span_placed]

/-- **What is read first is settled by the characters it takes.** -/
theorem next_cut {c : Cursor} (h : c.skipBlanks.rest ≠ []) :
    ∃ taken, c.rest = taken ++ c.next.2.rest ∧ c.next.2.offset = c.offset + utf8Length taken ∧
      ∀ ds, ds <+: c.next.2.rest → (skipBlanks ⟨c.offset, taken ++ ds⟩).rest ≠ [] ∧
        next ⟨c.offset, taken ++ ds⟩ = (c.next.1, ⟨c.next.2.offset, ds⟩) := by
  obtain ⟨o, cs⟩ := c
  obtain ⟨gap, left, rfl, hgap, -⟩ := Lexer.exists_blanks false cs
  have hskip : skipBlanks ⟨o, gap ++ left⟩ = ⟨o + utf8Length gap, left⟩ := by
    rw [skipBlanks, hgap, skip_append]
  rw [hskip] at h
  let k := (Lexer.lexeme left).1
  obtain ⟨mid, post, rfl, hmid⟩ : ∃ mid post, left = mid ++ post ∧ (Lexer.lexeme left).1 = mid.length :=
    ⟨left.take k, left.drop k, (List.take_append_drop k left).symm, by
      rw [List.length_take_of_le (Lexer.lexeme_le_length left)]⟩
  have hne : mid ≠ [] := by
    rintro rfl
    cases post with
    | nil => exact h rfl
    | cons d ds => exact absurd hmid (Nat.ne_of_gt (Lexer.lexeme_cons_pos d ds))
  have hnext : next ⟨o, gap ++ (mid ++ post)⟩ =
      (.placed (Lexer.lexeme (mid ++ post)).2 ⟨o + utf8Length gap, o + utf8Length gap + utf8Length mid⟩,
        ⟨o + utf8Length gap + utf8Length mid, post⟩) := by
    rw [next_eq, hskip, hmid, skip_append]
  rw [hnext]
  refine ⟨gap ++ mid, by simp, by rw [utf8Length_append, Nat.add_assoc], ?_⟩
  rintro ds ⟨es, rfl⟩
  -- neither the blanks nor the token reach behind `ds`
  have hblanks : Lexer.blankLength false (gap ++ (mid ++ ds)) = gap.length := by
    have hall : gap ++ (mid ++ ds) ++ es = gap ++ (mid ++ (ds ++ es)) := by simp
    have hlt : Lexer.blankLength false (gap ++ (mid ++ ds) ++ es) < (gap ++ (mid ++ ds)).length := by
      have := List.length_pos_iff.2 hne
      rw [hall, hgap, List.length_append, List.length_append]
      omega
    rw [← Lexer.blankLength_cut hlt, hall, hgap]
  have hlex : Lexer.lexeme (mid ++ (ds ++ es)) = Lexer.lexeme (mid ++ ds) := by
    rw [← List.append_assoc, Lexer.lexeme_cut (by simp [hne])]
    rw [List.append_assoc, hmid, List.length_append]
    omega
  have hskip' : skipBlanks ⟨o, gap ++ (mid ++ ds)⟩ = ⟨o + utf8Length gap, mid ++ ds⟩ := by
    rw [skipBlanks, hblanks, skip_append]
  rw [List.append_assoc, hskip']
  refine ⟨by simp [hne], ?_⟩
  rw [next_eq, hskip', ← hlex, hmid, skip_append]

/-- **A text may be cut off behind any of its tokens.** Those before are read as in the whole text, and
reading can be taken up again there. -/
theorem exists_cut {c : Cursor} {toks toks' : List (Located Token)}
    (h : c.readings = (toks ++ toks').map .ok) (hmore : toks' ≠ []) (last : Span)
    (hlast : last.stop = c.offset) :
    ∃ mid post, c.rest = mid ++ post ∧ (lastSpan last toks).stop = c.offset + utf8Length mid ∧
      readings ⟨c.offset, mid⟩ = toks.map .ok ++ [.ended (c.offset + utf8Length mid)] ∧
      readings ⟨c.offset + utf8Length mid, post⟩ = toks'.map .ok := by
  induction toks generalizing c last with
  | nil => exact ⟨[], c.rest, rfl, hlast, readings_nil c.offset, h⟩
  | cons t toks ih =>
    have hrest : c.skipBlanks.rest ≠ [] := by
      intro hend
      rw [readings, if_pos hend] at h
      simp [hmore] at h
    rw [readings, if_neg hrest, List.cons_append, List.map_cons] at h
    obtain ⟨hfirst, h⟩ := List.cons.inj h
    obtain ⟨taken, htaken, hoffset, hcut⟩ := next_cut hrest
    have hstop : t.span.stop = c.next.2.offset := by
      have hspan := c.span_next
      rw [hfirst] at hspan
      exact congrArg Span.stop hspan
    obtain ⟨mid, post, hmid, hspan, hread, hpost⟩ := ih h t.span hstop
    obtain ⟨hne, hnext⟩ := hcut mid ⟨post, hmid.symm⟩
    rw [hoffset, Nat.add_assoc, ← utf8Length_append] at hspan hpost
    refine ⟨taken ++ mid, post, by rw [htaken, hmid, List.append_assoc], hspan, ?_, hpost⟩
    rw [readings, if_neg hne, hnext, hread, hfirst, hoffset, Nat.add_assoc, ← utf8Length_append]
    rfl

/-- What is passed before a token. -/
theorem exists_gap (c : Cursor) : ∃ gap, c.rest = gap ++ c.skipBlanks.rest ∧
    c.skipBlanks.offset = c.offset + utf8Length gap :=
  ⟨_, (List.take_append_drop _ c.rest).symm, rfl⟩

theorem skipBlanks_skipBlanks (c : Cursor) : c.skipBlanks.skipBlanks = c.skipBlanks := by
  obtain ⟨o, cs⟩ := c
  obtain ⟨gap, left, rfl, hgap, hleft, -⟩ := Lexer.exists_blanks false cs
  rw [skipBlanks.eq_def ⟨o, gap ++ left⟩, hgap, skip_append, skipBlanks, hleft]
  simp [skip]

theorem readings_skipBlanks (c : Cursor) : c.skipBlanks.readings = c.readings :=
  readings_congr c.skipBlanks_skipBlanks

theorem head?_readings (c : Cursor) : c.readings.head? = some c.next.1 := by
  rw [readings]
  split <;> rfl

/-- A token begins behind the blanks before it. -/
theorem offset_skipBlanks_of_readings {c : Cursor} {t : Located Token} {toks : List (Located Token)}
    (h : c.readings = (t :: toks).map .ok) : c.skipBlanks.offset = t.span.start := by
  have hfirst : c.next.1 = .ok t := by
    have hhead := c.head?_readings
    rw [h] at hhead
    exact (Option.some.inj hhead).symm
  have hspan := c.span_next
  rw [hfirst] at hspan
  exact (congrArg Span.start hspan).symm

end Cursor

/-- The last token of a text is its end, and no other is. -/
theorem exists_of_tokenize {source : String} {all : List (Located Token)}
    (h : tokenize source = .ok all) :
    ∃ toks, all = toks ++ [⟨.eof, source.utf8ByteSize, source.utf8ByteSize⟩] ∧
      .eof ∉ toks.map Located.val := by
  obtain ⟨ts, hvals, hts⟩ := writable_of_tokenize h
  obtain ⟨body, hbody, -⟩ := exists_tokenize_line source
  rw [h] at hbody
  cases body with
  | error f => cases hbody
  | ok toks =>
    obtain rfl := Except.ok.inj hbody
    obtain rfl : toks.map Located.val = ts := by simpa using hvals
    exact ⟨toks, rfl, fun heof => hts _ heof⟩

/-- A text that is read further on in another one has its own tokens there. -/
theorem exists_tokenize_of_readings {n : Nat} {cs : List Char} {toks : List (Located Token)}
    (h : Cursor.readings ⟨n, cs⟩ = toks.map .ok ++ [.ended (n + utf8Length cs)]) :
    ∃ ts, tokenize (String.ofList cs) = .ok (ts ++ [⟨.eof, utf8Length cs, utf8Length cs⟩]) ∧
      ts.map (Located.shift n) = toks := by
  have hshift : (⟨n, cs⟩ : Cursor) = (Cursor.ofString (String.ofList cs)).shift n := by
    simp [Cursor.ofString, Cursor.shift]
  have hok : ((tokenize (String.ofList cs)).map (·.map (Located.shift n))).mapError (Located.shift n) =
      .ok (toks ++ [⟨.eof, n + utf8Length cs, n + utf8Length cs⟩]) := by
    rw [tokenize, ← Reading.mapM_shift, ← Cursor.readings_shift, ← hshift, mapM_id_eq_ok_iff, h]
    simp [Reading.ended]
  cases htokens : tokenize (String.ofList cs) with
  | error f =>
    rw [htokens] at hok
    cases hok
  | ok all =>
    rw [htokens] at hok
    obtain ⟨ts, _, rfl, hts, hend⟩ := List.map_eq_append_iff.1 (Except.ok.inj hok)
    obtain ⟨⟨v, start, stop⟩, _, rfl, hlast, hnil⟩ := List.map_eq_cons_iff.1 hend
    obtain rfl := List.map_eq_nil_iff.1 hnil
    simp only [Located.shift, Span.shift, Located.mk.injEq, Span.mk.injEq] at hlast
    obtain ⟨rfl, hstart, hstop⟩ := hlast
    obtain rfl : start = utf8Length cs := by omega
    obtain rfl : stop = utf8Length cs := by omega
    exact ⟨ts, rfl, hts⟩

/-- **A part of a text has the tokens it had in the whole.** It goes from the beginning of a token `t` to
the end of a token at or behind it. -/
theorem exists_tokenize_slice {source : String} {before toks after : List (Located Token)}
    {t : Located Token} (h : tokenize source = .ok (before ++ t :: toks ++ after)) (hafter : after ≠ []) :
    ∃ pre mid post, Span.Cuts ⟨t.span.start, (lastSpan t.span toks).stop⟩ source.toList pre mid post ∧
      mid ≠ [] ∧ ∃ ts, tokenize (String.ofList mid) =
          .ok (ts ++ [⟨.eof, utf8Length mid, utf8Length mid⟩]) ∧
        ts.map (Located.shift (utf8Length pre)) = t :: toks := by
  rw [tokenize_eq_ok_iff, List.append_assoc] at h
  obtain ⟨pre, c, hsource, hpre, hrest⟩ : ∃ pre, ∃ c : Cursor, source.toList = pre ++ c.rest ∧
      c.offset = utf8Length pre ∧ c.readings = (t :: toks ++ after).map .ok := by
    obtain ⟨pre, rest, hsource, -, -, hrest⟩ := Cursor.exists_cut h (by simp) .nowhere rfl
    exact ⟨pre, ⟨0 + utf8Length pre, rest⟩, hsource, Nat.zero_add _, hrest⟩
  -- the part begins behind the blanks that come before `t`
  obtain ⟨gap, hgap, hoffset⟩ := c.exists_gap
  have hstart := Cursor.offset_skipBlanks_of_readings hrest
  rw [← Cursor.readings_skipBlanks] at hrest
  obtain ⟨mid, post, hmid, hstop, hread, -⟩ :=
    Cursor.exists_cut hrest hafter ⟨0, c.skipBlanks.offset⟩ rfl
  rw [hpre, ← utf8Length_append] at hoffset
  rw [hoffset] at hstart hstop hread
  obtain ⟨ts, htokens, hts⟩ := exists_tokenize_of_readings hread
  refine ⟨pre ++ gap, mid, post, ⟨?_, hstart.symm, ?_⟩, ?_, ts, htokens, hts⟩
  · rw [hsource, hgap, hmid]
    simp
  · rw [utf8Length_append (pre ++ gap)]
    exact hstop
  · rintro rfl
    rw [Cursor.readings_nil] at hread
    simp at hread

end LetPoly
