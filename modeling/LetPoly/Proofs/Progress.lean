import LetPoly.Proofs.Descent

/-!
# Reading stops and moves forward

A place in a list of tokens is the stream of what comes after it (`Stream.seek`). Whatever a reader
answers, it leaves its stream at the same place or a later one (`Parser.Moves`), so reading can be
taken up again where it stopped, after an error too. An expression that is read has tokens and does
not go past an end of input; a program goes just past the first one.
-/

namespace LetPoly

namespace Stream

/-- The stream at a place in a list of tokens. -/
def seek (tokens : List (Located Token)) (pos : Nat) : Stream :=
  ⟨lastSpan .nowhere (tokens.take pos), tokens.drop pos⟩

/-- What is left after some tokens from a place is at a later place, by as many as there are. -/
theorem eq_seek {tokens used rest : List (Located Token)} {pos : Nat}
    (h : tokens.drop pos = used ++ rest) :
    ⟨lastSpan (seek tokens pos).last used, rest⟩ = seek tokens (pos + used.length) := by
  have htake : tokens.take (pos + used.length) = tokens.take pos ++ used := by
    rw [List.take_add, h, List.take_left]
  have hdrop : tokens.drop (pos + used.length) = rest := by
    rw [← List.drop_drop, h, List.drop_left]
  rw [seek, seek, htake, hdrop, lastSpan_append]

theorem add_length_le {tokens used rest : List (Located Token)} {pos : Nat}
    (hpos : pos ≤ tokens.length) (h : tokens.drop pos = used ++ rest) :
    pos + used.length ≤ tokens.length := by
  have hlength := congrArg List.length h
  rw [List.length_drop, List.length_append] at hlength
  omega

theorem Reaches.exists_seek {tokens : List (Located Token)} {pos : Nat} {s : Stream}
    (h : (seek tokens pos).Reaches s) (hpos : pos ≤ tokens.length) :
    ∃ next, pos ≤ next ∧ next ≤ tokens.length ∧ s = seek tokens next := by
  obtain ⟨used, hrest, hlast⟩ := h
  refine ⟨pos + used.length, Nat.le_add_right _ _, add_length_le hpos hrest, ?_⟩
  rw [← eq_seek hrest, ← hlast]

end Stream

namespace Parser

/-! ### Statements and programs move forward -/

theorem moves_statements : Moves statements := by
  intro s
  fun_induction statements s with
  | case1 s heof => exact .refl s
  | case2 s heof e s' hread => exact moves_statement.of_eq hread
  | case3 s heof first s' hread hsemi hlt e s'' hmore ih =>
    rw [hmore] at ih
    exact (moves_statement.of_eq hread).trans (s'.reaches_advance.trans ih)
  | case4 s heof first s' hread hsemi hlt more s'' hmore ih =>
    rw [hmore] at ih
    exact (moves_statement.of_eq hread).trans (s'.reaches_advance.trans ih)
  | case5 s heof first s' hread hsemi => exact moves_statement.of_eq hread

theorem moves_program : Moves program :=
  .get fun _ => moves_statements.bind fun _ => (moves_expect _).bind fun _ => .pure _

/-! ### Where a success ends -/

/-- An expression has tokens, none of which is an end of input. -/
theorem exists_of_expression_ok {s : Stream} {e : Expr} (h : (expression s).1 = .ok e) :
    ∃ used rest, s.rest = used ++ rest ∧ used ≠ [] ∧ (∀ t ∈ used, t.val ≠ .eof) ∧
      (expression s).2 = ⟨lastSpan s.last used, rest⟩ := by
  have hread : expression s = (.ok e, (expression s).2) := Prod.ext h rfl
  obtain ⟨used, rest, hrest, hleft, p, -, hused⟩ := expression_recognizes hread
  refine ⟨used, rest, hrest, ?_, ?_, hleft⟩
  · rintro rfl
    obtain ⟨t, ts, hp, -⟩ := p.exists_tokens_cons
    rw [hp] at hused
    cases hused
  · intro t ht heof
    refine p.eof_notMem_tokens (hused ▸ ?_)
    exact heof ▸ List.mem_map_of_mem ht

/-- The statements of a program go as far as the first end of input, and the program past it. -/
theorem exists_of_program_ok {s : Stream} {p : Program} (h : (program s).1 = .ok p) :
    ∃ used rest, s.rest = used ++ rest ∧ (∀ t ∈ used, t.val ≠ .eof) ∧ nextToken rest = .eof ∧
      (program s).2 = (Stream.mk (lastSpan s.last used) rest).advance := by
  rw [program, get_bind] at h ⊢
  obtain ⟨ss, s₁, hread, h⟩ := exists_of_bind_ok h
  obtain ⟨u, s₂, hend, -⟩ := exists_of_bind_ok h
  obtain ⟨used, rest, hrest, rfl, ended, cs, -, hused⟩ := statements_recognizes hread
  have hpeek : (Stream.mk (lastSpan s.last used) rest).peek.val = .eof :=
    peek_of_expect_ok (congrArg Prod.fst hend)
  refine ⟨used, rest, hrest, ?_, hpeek, ?_⟩
  · intro t ht heof
    refine Clause.eof_notMem_sequence ended cs (hused ▸ ?_)
    exact heof ▸ List.mem_map_of_mem ht
  · rw [bind_of_ok hread, bind_of_ok (expect_of_peek hpeek)]
    rfl

/-- The place just after the first end of input from a place on, or after all tokens if there is
none. -/
def afterEof (tokens : List (Located Token)) (pos : Nat) : Nat :=
  match (tokens.drop pos).findIdx? (·.val = .eof) with
  | some i => pos + i + 1
  | none => tokens.length

theorem afterEof_of_mem {tokens used rest : List (Located Token)} {t : Located Token} {pos : Nat}
    (h : tokens.drop pos = used ++ t :: rest) (hused : ∀ t ∈ used, t.val ≠ .eof)
    (ht : t.val = .eof) : afterEof tokens pos = pos + used.length + 1 := by
  have hused' : used.findIdx? (·.val = .eof) = none := by simpa using hused
  have hfind : (tokens.drop pos).findIdx? (·.val = .eof) = some used.length := by
    rw [h, List.findIdx?_append, hused', List.findIdx?_cons]
    simp [ht]
  simp only [afterEof, hfind]

theorem afterEof_of_notMem {tokens : List (Located Token)} {pos : Nat}
    (h : ∀ t ∈ tokens.drop pos, t.val ≠ .eof) : afterEof tokens pos = tokens.length := by
  have hfind : (tokens.drop pos).findIdx? (·.val = .eof) = none := by simpa using h
  simp only [afterEof, hfind]

section Places

variable {tokens : List (Located Token)} {pos : Nat}

theorem exists_seek_expression (hpos : pos ≤ tokens.length) :
    ∃ next, pos ≤ next ∧ next ≤ tokens.length ∧
      (expression (.seek tokens pos)).2 = .seek tokens next ∧
      ∀ e, (expression (.seek tokens pos)).1 = .ok e →
        pos < next ∧ ∀ t ∈ (tokens.drop pos).take (next - pos), t.val ≠ .eof := by
  match hanswer : (expression (.seek tokens pos)).1 with
  | .error _ =>
    obtain ⟨next, hle, hlength, hnext⟩ := (moves_expression _).exists_seek hpos
    exact ⟨next, hle, hlength, hnext, fun e he => by cases he⟩
  | .ok e =>
    obtain ⟨used, rest, hrest, hne, heof, hleft⟩ := exists_of_expression_ok hanswer
    have hdrop : tokens.drop pos = used ++ rest := hrest
    have htake : (tokens.drop pos).take (pos + used.length - pos) = used := by
      rw [Nat.add_sub_cancel_left, hdrop, List.take_left]
    refine ⟨pos + used.length, Nat.le_add_right _ _, Stream.add_length_le hpos hdrop,
      hleft.trans (Stream.eq_seek hdrop), fun _ _ => ⟨?_, ?_⟩⟩
    · exact Nat.lt_add_of_pos_right (List.length_pos_iff.2 hne)
    · rwa [htake]

theorem exists_seek_program (hpos : pos ≤ tokens.length) :
    ∃ next, pos ≤ next ∧ next ≤ tokens.length ∧
      (program (.seek tokens pos)).2 = .seek tokens next ∧
      ∀ p, (program (.seek tokens pos)).1 = .ok p → next = afterEof tokens pos := by
  match hanswer : (program (.seek tokens pos)).1 with
  | .error _ =>
    obtain ⟨next, hle, hlength, hnext⟩ := (moves_program _).exists_seek hpos
    exact ⟨next, hle, hlength, hnext, fun p hp => by cases hp⟩
  | .ok p =>
    obtain ⟨used, rest, hrest, heof, hend, hleft⟩ := exists_of_program_ok hanswer
    have hdrop : tokens.drop pos = used ++ rest := hrest
    cases rest with
    | nil =>
      -- There is no end of input among the tokens, and nothing to move past.
      refine ⟨pos + used.length, Nat.le_add_right _ _, Stream.add_length_le hpos hdrop,
        hleft.trans (Stream.eq_seek hdrop), fun _ _ => ?_⟩
      rw [List.append_nil] at hdrop
      have hlength := congrArg List.length hdrop
      rw [List.length_drop] at hlength
      rw [afterEof_of_notMem (hdrop ▸ heof)]
      omega
    | cons t rest =>
      have hpast : tokens.drop pos = (used ++ [t]) ++ rest := by
        rw [hdrop, List.append_assoc, List.singleton_append]
      have hlast : (Stream.mk (lastSpan (Stream.seek tokens pos).last used) (t :: rest)).advance =
          ⟨lastSpan (Stream.seek tokens pos).last (used ++ [t]), rest⟩ := by
        rw [lastSpan_append]
        rfl
      refine ⟨pos + (used ++ [t]).length, Nat.le_add_right _ _, Stream.add_length_le hpos hpast,
        (hleft.trans hlast).trans (Stream.eq_seek hpast), fun _ _ => ?_⟩
      rw [afterEof_of_mem hdrop heof hend, List.length_append, List.length_singleton, Nat.add_assoc]

end Places

/-- **Reading stops and moves forward**, from every place in every list of tokens. Recursive descent
comes to an end, and where reading has stopped is a later place, or the same. It is a later one if an
expression was read, with no end of input on the way, and if a program was read, it is just after the
first end of input. -/
theorem stops_and_moves_forward (tokens : List (Located Token)) (pos : Nat)
    (hpos : pos ≤ tokens.length) :
    (∀ fuel, 3 * (tokens.length - pos) + 3 ≤ fuel →
      Descent.expression fuel (.seek tokens pos) = some (expression (.seek tokens pos))) ∧
    (∀ fuel, 3 * (tokens.length - pos) + 4 ≤ fuel →
      Descent.program fuel (.seek tokens pos) = some (program (.seek tokens pos))) ∧
    (∃ next, pos ≤ next ∧ next ≤ tokens.length ∧
      (expression (.seek tokens pos)).2 = .seek tokens next ∧
      ∀ e, (expression (.seek tokens pos)).1 = .ok e →
        pos < next ∧ ∀ t ∈ (tokens.drop pos).take (next - pos), t.val ≠ .eof) ∧
    (∃ next, pos ≤ next ∧ next ≤ tokens.length ∧
      (program (.seek tokens pos)).2 = .seek tokens next ∧
      ∀ p, (program (.seek tokens pos)).1 = .ok p → next = afterEof tokens pos) := by
  have hlength : (Stream.seek tokens pos).rest.length = tokens.length - pos := List.length_drop
  refine ⟨fun fuel hfuel => ?_, fun fuel hfuel => ?_, exists_seek_expression hpos,
    exists_seek_program hpos⟩
  · exact Descent.expression_eq (hlength ▸ hfuel)
  · exact Descent.program_eq (hlength ▸ hfuel)

/-- After a program and its end of input an expression can be read, up to a bracket that nothing has
opened. -/
theorem stops_and_moves_forward_resumed :
    let tokens : List (Located Token) :=
      [⟨.ident "x", 0, 1⟩, ⟨.eof, 1, 1⟩, ⟨.ident "y", 2, 3⟩, ⟨.rparen, 3, 4⟩]
    (program (.seek tokens 0)).2 = .seek tokens 2 ∧
      ∃ next, 2 < next ∧ next ≤ 4 ∧ (expression (.seek tokens 2)).2 = .seek tokens next := by
  intro tokens
  obtain ⟨-, -, -, next, -, -, hprogram, hend⟩ := stops_and_moves_forward tokens 0 (by decide)
  obtain ⟨-, -, ⟨next', -, hle, hexpression, hmore⟩, -⟩ :=
    stops_and_moves_forward tokens 2 (by decide)
  refine ⟨?_, next', (hmore (.var "y") rfl).1, hle, hexpression⟩
  have hok : ((program (.seek tokens 0)).1.toOption).isSome = true := by decide +kernel
  cases hanswer : (program (.seek tokens 0)).1 with
  | error e =>
    rw [hanswer] at hok
    cases hok
  | ok p =>
    have hafter : afterEof tokens 0 = 2 := by decide
    rw [hprogram, hend p hanswer, hafter]

end Parser

end LetPoly
