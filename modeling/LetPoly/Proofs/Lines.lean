import LetPoly.Proofs.Partition

/-!
# Lines are read one by one

Nothing that is read goes over the end of a line: a newline ends a comment, is part of no token, and
stands between a dash and whatever comes next. So a text that is followed by another line is read as
it would be alone (`Cursor.next_thenLine`), the end of the text apart, and the line after it is read
as if it were a text of its own, only further on (`Cursor.readings_thenLine`,
`Cursor.readings_shift`).
-/

namespace LetPoly

/-! ### Further on in a text -/

/-- The same bytes when `n` others come before the text. -/
def Span.shift (n : Nat) (s : Span) : Span := ⟨s.start + n, s.stop + n⟩

def Located.shift {α : Type} (n : Nat) (x : Located α) : Located α := ⟨x.val, x.span.shift n⟩

def Reading.shift (n : Nat) : Reading → Reading
  | .ok t => .ok (t.shift n)
  | .error f => .error (f.shift n)

theorem Reading.shift_placed (n : Nat) (v : Except LexFault Token) (s : Span) :
    Reading.shift n (.placed v s) = .placed v (s.shift n) := by
  cases v <;> rfl

namespace Cursor

def shift (n : Nat) (c : Cursor) : Cursor := ⟨c.offset + n, c.rest⟩

@[simp] theorem rest_shift (n : Nat) (c : Cursor) : (c.shift n).rest = c.rest := rfl

theorem skip_shift (n k : Nat) (c : Cursor) : (c.shift n).skip k = (c.skip k).shift n := by
  simp only [skip, shift, Cursor.mk.injEq, and_true]
  omega

theorem skipBlanks_shift (n : Nat) (c : Cursor) : (c.shift n).skipBlanks = c.skipBlanks.shift n :=
  skip_shift n _ c

theorem next_shift (n : Nat) (c : Cursor) :
    (c.shift n).next = (Reading.shift n c.next.1, c.next.2.shift n) := by
  rw [next_eq, next_eq c, skipBlanks_shift, rest_shift, skip_shift, Reading.shift_placed]
  rfl

/-- The same text further on is read alike. -/
theorem readings_shift (n : Nat) (c : Cursor) :
    (c.shift n).readings = c.readings.map (Reading.shift n) := by
  induction c using readings.induct with
  | case1 c hend =>
    rw [readings, skipBlanks_shift, rest_shift, if_pos hend, readings, if_pos hend, next_shift]
    rfl
  | case2 c hrest ih =>
    rw [readings, skipBlanks_shift, rest_shift, if_neg hrest, readings.eq_def c, if_neg hrest,
      next_shift, ih]
    rfl

end Cursor

/-! ### Another line after a text -/

namespace Lexer

variable (cs ds : List Char)

theorem head?_line {c : Char} (hc : c ≠ '\n') :
    (cs ++ '\n' :: ds).head? = some c ↔ cs.head? = some c := by
  cases cs <;> simp [hc.symm]

theorem takeWhile_line {p : Char → Bool} (hp : p '\n' = false) :
    (cs ++ '\n' :: ds).takeWhile p = cs.takeWhile p := by
  induction cs with
  | nil => simp [hp]
  | cons c cs ih =>
    rw [List.cons_append, List.takeWhile_cons, List.takeWhile_cons, ih]

/-- A newline is no part of a token. -/
theorem lexeme_line (hcs : cs ≠ []) : lexeme (cs ++ '\n' :: ds) = lexeme cs := by
  cases cs with
  | nil => exact absurd rfl hcs
  | cons c cs =>
    simp only [List.cons_append, lexeme, head?_line cs ds (show '>' ≠ '\n' by decide),
      takeWhile_line cs ds (show Char.isDigit '\n' = false by decide),
      takeWhile_line cs ds (show continuesWord '\n' = false by decide)]

/-- Blanks and comments end within a text, or take all of it and go on after the newline. -/
theorem blankLength_line (inComment : Bool) :
    blankLength inComment (cs ++ '\n' :: ds) =
      if blankLength inComment cs = cs.length then cs.length + 1 + blankLength false ds
      else blankLength inComment cs := by
  induction cs generalizing inComment with
  | nil =>
    have hblank : isBlank '\n' = true := by decide
    cases inComment <;> simp [blankLength, hblank] <;> omega
  | cons c cs ih =>
    simp only [List.cons_append, blankLength, head?_line cs ds (show '-' ≠ '\n' by decide), ih,
      List.length_cons]
    grind

theorem lexeme_le_length (cs : List Char) : (lexeme cs).1 ≤ cs.length := by
  cases cs with
  | nil => exact Nat.le_refl 0
  | cons c cs =>
    dsimp only [lexeme]
    cases Token.ofSymbol? c with
    | some t => simp
    | none =>
      dsimp only
      split_ifs with harrow
      · cases cs with
        | nil => simp at harrow
        | cons d cs => simp
      · exact Nat.succ_le_succ (List.takeWhile_prefix _).length_le
      · exact Nat.succ_le_succ (List.takeWhile_prefix _).length_le
      · simp

theorem blankLength_le_length (inComment : Bool) (cs : List Char) :
    blankLength inComment cs ≤ cs.length := by
  obtain ⟨gap, rest, rfl, hlength, -⟩ := exists_blanks inComment cs
  rw [hlength, List.length_append]
  omega

end Lexer

namespace Cursor

/-- The same place in a text, with another line after the text. -/
def thenLine (ds : List Char) (c : Cursor) : Cursor := ⟨c.offset, c.rest ++ '\n' :: ds⟩

@[simp] theorem rest_thenLine (ds : List Char) (c : Cursor) :
    (c.thenLine ds).rest = c.rest ++ '\n' :: ds := rfl

theorem skip_thenLine (ds : List Char) {c : Cursor} {n : Nat} (h : n ≤ c.rest.length) :
    (c.thenLine ds).skip n = (c.skip n).thenLine ds := by
  simp only [skip, thenLine, List.take_append_of_le_length h, List.drop_append_of_le_length h]

theorem blankLength_eq_length_iff (c : Cursor) :
    Lexer.blankLength false c.rest = c.rest.length ↔ c.skipBlanks.rest = [] := by
  have := Lexer.blankLength_le_length false c.rest
  rw [skipBlanks, rest_skip, List.drop_eq_nil_iff]
  omega

/-- A piece of a text is read the same way when another line follows. -/
theorem next_thenLine (ds : List Char) {c : Cursor} (h : c.skipBlanks.rest ≠ []) :
    (c.thenLine ds).skipBlanks.rest ≠ [] ∧
      (c.thenLine ds).next = (c.next.1, c.next.2.thenLine ds) := by
  have hlength := mt c.blankLength_eq_length_iff.1 h
  have hskip : (c.thenLine ds).skipBlanks = c.skipBlanks.thenLine ds := by
    rw [skipBlanks, rest_thenLine, Lexer.blankLength_line, if_neg hlength]
    exact skip_thenLine ds (Lexer.blankLength_le_length false c.rest)
  refine ⟨by simp [hskip], ?_⟩
  rw [next_eq, next_eq c, hskip, rest_thenLine, Lexer.lexeme_line _ _ h,
    skip_thenLine ds (Lexer.lexeme_le_length _)]
  rfl

/-- If nothing is left to read, reading goes on with the line that follows. -/
theorem skipBlanks_thenLine (ds : List Char) {c : Cursor} (h : c.skipBlanks.rest = []) :
    (c.thenLine ds).skipBlanks = skipBlanks ⟨c.offset + utf8Length c.rest + 1, ds⟩ := by
  have hlength := c.blankLength_eq_length_iff.2 h
  have hnewline : '\n'.utf8Size = 1 := rfl
  simp only [skipBlanks, rest_thenLine, Lexer.blankLength_line, if_pos hlength]
  rw [Nat.add_assoc, Nat.add_comm 1]
  simp [skip, thenLine, List.take_length_add_append, List.drop_length_add_append, hnewline,
    Nat.add_assoc]

/-- Reading never loses track of where the text ends. -/
theorem offset_add_skip (c : Cursor) (n : Nat) :
    (c.skip n).offset + utf8Length (c.skip n).rest = c.offset + utf8Length c.rest := by
  have := congrArg utf8Length (List.take_append_drop n c.rest)
  rw [utf8Length_append] at this
  simp only [skip]
  omega

theorem offset_add_next (c : Cursor) :
    c.next.2.offset + utf8Length c.next.2.rest = c.offset + utf8Length c.rest := by
  rw [next_eq, offset_add_skip, skipBlanks, offset_add_skip]

theorem readings_ne_nil (c : Cursor) : c.readings ≠ [] := by
  rw [readings]
  split <;> simp

/-- **A text and another line are read one after the other.** The end of the text is read only after
the line. -/
theorem readings_thenLine (ds : List Char) (c : Cursor) :
    (c.thenLine ds).readings =
      c.readings.dropLast ++ readings ⟨c.offset + utf8Length c.rest + 1, ds⟩ := by
  induction c using readings.induct with
  | case1 c hend =>
    rw [readings_congr (skipBlanks_thenLine ds hend), readings.eq_def c, if_pos hend]
    rfl
  | case2 c hrest ih =>
    obtain ⟨hne, hnext⟩ := next_thenLine ds hrest
    rw [readings, if_neg hne, hnext, readings.eq_def c, if_neg hrest, ih, offset_add_next,
      List.dropLast_cons_of_ne_nil (readings_ne_nil _), List.cons_append]

end Cursor

/-! ### Whole texts -/

theorem Reading.mapM_shift (n : Nat) (rs : List Reading) :
    (rs.map (Reading.shift n)).mapM id =
      ((rs.mapM id).map (·.map (Located.shift n))).mapError (Located.shift n) := by
  induction rs with
  | nil => rfl
  | cons r rs ih =>
    rw [List.map_cons, List.mapM_cons, List.mapM_cons, ih]
    cases r with
    | error f => rfl
    | ok t => cases rs.mapM id <;> rfl

/-- A text and another line have the tokens of the text, then those of the line, or the first fault in
either. -/
theorem exists_tokenize_line (s : String) :
    ∃ body : Except (Located LexFault) (List (Located Token)),
      tokenize s = body.map (· ++ [⟨.eof, s.utf8ByteSize, s.utf8ByteSize⟩]) ∧
      ∀ s' : String, tokenize (s ++ "\n" ++ s') = body.bind fun ts =>
        (((tokenize s').map (·.map (Located.shift (s.utf8ByteSize + 1)))).mapError
          (Located.shift (s.utf8ByteSize + 1))).map (ts ++ ·) := by
  obtain ⟨rs, -, hreadings, -⟩ := Cursor.exists_tiling (Lexer.Parted.nil s.toList)
  rw [List.nil_append, utf8Length_nil, utf8Length_toList] at hreadings
  refine ⟨rs.mapM id, ?_, fun s' => ?_⟩
  · rw [tokenize, Cursor.ofString, hreadings, List.mapM_append]
    cases rs.mapM id <;> rfl
  · have hline : Cursor.ofString (s ++ "\n" ++ s') = Cursor.thenLine s'.toList ⟨0, s.toList⟩ := by
      simp [Cursor.ofString, Cursor.thenLine]
    have hshift : (⟨0 + s.utf8ByteSize + 1, s'.toList⟩ : Cursor) =
        (Cursor.ofString s').shift (s.utf8ByteSize + 1) := by
      simp [Cursor.ofString, Cursor.shift]
    rw [tokenize, hline, Cursor.readings_thenLine, hreadings, List.dropLast_concat, utf8Length_toList,
      hshift, Cursor.readings_shift, List.mapM_append, Reading.mapM_shift]
    rfl

/-- **Lines are read one by one.** The tokens of a text followed by another line are those of the text
without its end, then those of the line, which stand further on by the bytes of the text and of the
newline. A fault in the text stays as it is whatever the line says. If there is none, a fault in the line
is found further on by as much. -/
theorem tokenize_append_line (s₁ s₂ : String) :
    (∀ ts₁ ts₂, tokenize s₁ = .ok ts₁ → tokenize s₂ = .ok ts₂ →
      ∃ ts, ts₁ = ts ++ [⟨.eof, s₁.utf8ByteSize, s₁.utf8ByteSize⟩] ∧
        tokenize (s₁ ++ "\n" ++ s₂) = .ok (ts ++ ts₂.map (Located.shift (s₁.utf8ByteSize + 1)))) ∧
    (∀ f, tokenize s₁ = .error f → tokenize (s₁ ++ "\n" ++ s₂) = .error f) ∧
    (∀ ts₁ f, tokenize s₁ = .ok ts₁ → tokenize s₂ = .error f →
      tokenize (s₁ ++ "\n" ++ s₂) = .error (f.shift (s₁.utf8ByteSize + 1))) := by
  obtain ⟨body, htext, hline⟩ := exists_tokenize_line s₁
  rw [htext, hline]
  cases body with
  | error f =>
    refine ⟨fun ts₁ ts₂ h => ?_, fun g h => ?_, fun ts₁ g h => ?_⟩
    · cases h
    · cases h; rfl
    · cases h
  | ok ts =>
    refine ⟨fun ts₁ ts₂ h₁ h₂ => ?_, fun g h => ?_, fun ts₁ g h₁ h₂ => ?_⟩
    · cases h₁
      exact ⟨ts, rfl, by rw [h₂]; rfl⟩
    · cases h
    · rw [h₂]; rfl

/-- `λ` takes two bytes, so the line after the comment begins at byte 7. -/
theorem tokenize_append_line_comment :
    tokenize ("x --λ" ++ "\n" ++ "1") = .ok [⟨.ident "x", 0, 1⟩, ⟨.int 1, 7, 8⟩, ⟨.eof, 8, 8⟩] ∧
      tokenize ("x --λ" ++ "\n" ++ "?") = .error ⟨.unexpectedCharacter '?', 7, 8⟩ ∧
      tokenize ("x ?" ++ "\n" ++ "1") = .error ⟨.unexpectedCharacter '?', 2, 3⟩ := by
  have htext : tokenize "x --λ" = .ok [⟨.ident "x", 0, 1⟩, ⟨.eof, 6, 6⟩] := by decide +kernel
  have hnumber : tokenize "1" = .ok [⟨.int 1, 0, 1⟩, ⟨.eof, 1, 1⟩] := by decide +kernel
  have hfault : tokenize "?" = .error ⟨.unexpectedCharacter '?', 0, 1⟩ := by decide +kernel
  obtain ⟨ts, hts, hok⟩ := (tokenize_append_line "x --λ" "1").1 _ _ htext hnumber
  refine ⟨?_, (tokenize_append_line "x --λ" "?").2.2 _ _ htext hfault,
    (tokenize_append_line "x ?" "1").2.1 _ (by decide +kernel)⟩
  obtain rfl : [⟨.ident "x", 0, 1⟩] = ts := List.append_inj_left' hts rfl
  exact hok

end LetPoly
