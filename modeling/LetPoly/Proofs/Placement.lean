import LetPoly.Diagnostic
import LetPoly.Proofs.Location

/-!
# Where errors are said to be

A diagnostic names the line and the column of an error. The right ones are found by counting along the
text before the error (`Span.place`), and this is how the place of a character with a given number is
computed (`Place.ofIndex_length`). But the number that a diagnostic takes for it is an offset in bytes.
It comes out right exactly if no character before the error takes more than one byte. An error that
ends too far behind the text, when its bytes are counted as characters, is not placed at all.
-/

namespace LetPoly

/-! ### Characters and bytes -/

theorem length_le_utf8Length (cs : List Char) : cs.length ≤ utf8Length cs := by
  induction cs with
  | nil => exact Nat.le_refl 0
  | cons c cs ih =>
    have := c.utf8Size_pos
    rw [utf8Length_cons, List.length_cons]
    omega

/-- As many bytes as characters. -/
theorem utf8Length_eq_length_iff {cs : List Char} :
    utf8Length cs = cs.length ↔ ∀ c ∈ cs, c.utf8Size = 1 := by
  induction cs with
  | nil => simp
  | cons c cs ih =>
    have hc := c.utf8Size_pos
    have hcs := length_le_utf8Length cs
    rw [List.forall_mem_cons, ← ih, utf8Length_cons, List.length_cons]
    omega

/-! ### Places -/

namespace Place

/-- The place behind a character, given what follows it. A line that nothing is on does not begin. -/
def advance (p : Place) (c : Char) (rest : List Char) : Place :=
  match rest with
  | d :: _ => if endsLine c d then ⟨p.line + 1, 1⟩ else ⟨p.line, p.column + 1⟩
  | [] => ⟨p.line, p.column + 1⟩

/-- The place behind some characters that begin at a given place, with others behind them. -/
def walk (p : Place) (pre post : List Char) : Place :=
  match pre with
  | [] => p
  | c :: pre => walk (p.advance c (pre ++ post)) pre post

theorem lt_of_mem_laterLines {k i : Nat} {cs : List Char} (h : k ∈ laterLines i cs) : i < k := by
  fun_induction laterLines i cs with
  | case1 i c d cs hends ih =>
    rcases List.mem_cons.1 h with rfl | h
    · exact Nat.lt_succ_self i
    · exact Nat.lt_of_succ_lt (ih h)
  | case2 i c d cs hends ih => exact Nat.lt_of_succ_lt (ih h)
  | case3 i cs => cases h

/-- Where the lines begin up to the character behind `pre`, if the first one has the number `i`. -/
def begun (i : Nat) (pre post : List Char) : List Nat :=
  (laterLines i (pre ++ post)).filter (· ≤ i + pre.length)

theorem begun_nil (i : Nat) (post : List Char) : begun i [] post = [] := by
  refine List.filter_eq_nil_iff.2 fun k hk => ?_
  simpa using lt_of_mem_laterLines hk

theorem begun_singleton (i : Nat) (c : Char) : begun i [c] [] = [] := rfl

theorem begun_cons {i : Nat} {c d : Char} {pre post cs : List Char} (h : pre ++ post = d :: cs) :
    begun i (c :: pre) post =
      if endsLine c d then (i + 1) :: begun (i + 1) pre post else begun (i + 1) pre post := by
  have hnumber : i + (c :: pre).length = i + 1 + pre.length := by
    rw [List.length_cons]
    omega
  rw [begun, begun, List.cons_append, h, laterLines, hnumber]
  split
  · exact List.filter_cons_of_pos (by simp)
  · rfl

/-- Walking over characters, from the `i`-th character of a text on, which is on a line that begins at
`start`. -/
theorem walk_eq (pre post : List Char) (line : Nat) {start i : Nat} (hstart : start ≤ i) :
    walk ⟨line, i - start + 1⟩ pre post =
      ⟨line + (begun i pre post).length, i + pre.length - (begun i pre post).getLastD start + 1⟩ := by
  induction pre generalizing line start i with
  | nil => simp [walk, begun_nil]
  | cons c pre ih =>
    have hcolumn : i - start + 1 = i + 1 - start := (Nat.sub_add_comm hstart).symm
    have hnumber : i + (c :: pre).length = i + 1 + pre.length := by
      rw [List.length_cons]
      omega
    rw [walk, hnumber]
    cases hrest : pre ++ post with
    | nil =>
      obtain ⟨rfl, rfl⟩ := List.append_eq_nil_iff.1 hrest
      simp [begun_singleton, advance, walk, hcolumn]
    | cons d cs =>
      rw [begun_cons hrest, advance]
      split
      · have hfirst : walk ⟨line + 1, 1⟩ pre post = walk ⟨line + 1, i + 1 - (i + 1) + 1⟩ pre post := by
          rw [Nat.sub_self]
        rw [hfirst, ih (line + 1) (Nat.le_refl (i + 1)), List.length_cons, List.getLastD_cons,
          Nat.add_right_comm line, Nat.add_assoc line]
      · rw [hcolumn]
        exact ih line (Nat.le_succ_of_le hstart)

/-- The place of a character is where walking over those before it ends. -/
theorem ofIndex_length (pre post : List Char) :
    ofIndex (pre ++ post) pre.length = walk ⟨1, 1⟩ pre post := by
  have hwalk := walk_eq pre post 1 (Nat.le_refl 0)
  rw [Nat.sub_self] at hwalk
  rw [hwalk, ofIndex, begun, Nat.zero_add, Nat.add_comm 1]

/-- The line of the `i`-th character begins there or before. -/
theorem getLastD_begun_le (starts : List Nat) (i : Nat) :
    (starts.filter (· ≤ i)).getLastD 0 ≤ i := by
  rw [List.getLastD_eq_getLast?]
  cases h : (starts.filter (· ≤ i)).getLast? with
  | none => exact Nat.zero_le i
  | some start =>
    have hmem := List.mem_of_getLast? h
    simpa using (List.mem_filter.1 hmem).2

/-- Different characters have different places. -/
theorem ofIndex_injective (source : List Char) : Function.Injective (ofIndex source) := by
  suffices h : ∀ i j, i ≤ j → ofIndex source i = ofIndex source j → i = j by
    intro i j hij
    rcases Nat.le_total i j with hle | hle
    · exact h i j hle hij
    · exact (h j i hle hij.symm).symm
  intro i j hle hij
  simp only [ofIndex, Place.mk.injEq, Nat.add_right_cancel_iff] at hij
  obtain ⟨hline, hcolumn⟩ := hij
  -- the lines that have begun are the same, as there are as many
  have hbegun : (laterLines 0 source).filter (· ≤ i) = (laterLines 0 source).filter (· ≤ j) := by
    refine List.Sublist.eq_of_length (List.monotone_filter_right _ fun k hk => ?_) hline
    have hk : k ≤ i := by simpa using hk
    simpa using hk.trans hle
  have hi := getLastD_begun_le (laterLines 0 source) i
  rw [← hbegun] at hcolumn
  omega

end Place

/-- The line and the column of the character that a span begins with, counted along the text before
it. -/
def Span.place (span : Span) (source : String) : Place :=
  .walk ⟨1, 1⟩ (span.before source).toList (span.text source ++ span.after source).toList

theorem Diagnostic.place_ofError (source : String) (e : Error) :
    (Diagnostic.ofError source e).place = Place.ofSpan? source.toList e.span := by
  unfold Diagnostic.ofError
  split <;> simp_all

/-- The place that is named for a span, and the right one. -/
theorem Span.Cuts.ofSpan?_eq_place_iff {span : Span} {source : String} {pre mid post : List Char}
    (h : span.Cuts source.toList pre mid post) :
    Place.ofSpan? source.toList span = some (span.place source) ↔
      utf8Length pre = pre.length ∧ span.stop ≤ source.length + 1 := by
  have hplace : span.place source = Place.ofIndex source.toList pre.length := by
    rw [Span.place, h.before_eq, h.text_eq, h.after_eq, h.source_eq, List.append_assoc,
      Place.ofIndex_length]
    simp
  have hlength : source.toList.length = pre.length + mid.length + post.length := by
    rw [h.source_eq, List.length_append, List.length_append]
  have hstop := h.stop_eq
  rw [utf8Length_append, ← h.start_eq] at hstop
  rw [Place.ofSpan?, hplace, ← String.length_toList, ← h.start_eq]
  split
  · rename_i hbeyond
    refine ⟨fun hsome => (nomatch hsome), fun ⟨hstart, hle⟩ => ?_⟩
    omega
  · rename_i hwithin
    rw [Option.some_inj, (Place.ofIndex_injective source.toList).eq_iff]
    refine ⟨fun hstart => ⟨hstart, ?_⟩, And.left⟩
    omega

/-- **When the place of an error is named correctly.** The place that is said of an error is that of the
character at which the error begins, if and only if all characters before it take one byte each, and the
error does not end more than a byte behind as many bytes as the text has characters. So it is in a text
of characters that take one byte each. -/
theorem Diagnostic.place_correct_iff {policy : LetPolicy} {source : String} {err : Error}
    (h : (checkSource policy source).result = .error err) :
    ((Diagnostic.ofError source err).place = some (err.span.place source) ↔
      (∀ c ∈ (err.span.before source).toList, c.utf8Size = 1) ∧ err.span.stop ≤ source.length + 1) ∧
    ((∀ c ∈ source.toList, c.utf8Size = 1) →
      (Diagnostic.ofError source err).place = some (err.span.place source)) := by
  obtain ⟨pre, mid, post, hcut, -⟩ := blamed_of_checkSource h
  rw [Diagnostic.place_ofError, hcut.ofSpan?_eq_place_iff, hcut.before_eq, String.toList_ofList,
    utf8Length_eq_length_iff]
  refine ⟨Iff.rfl, fun hsource => ?_⟩
  rw [hcut.source_eq] at hsource
  have hbytes : utf8Length (pre ++ mid) = (pre ++ mid).length :=
    utf8Length_eq_length_iff.2 fun c hc => hsource c (List.mem_append_left post hc)
  refine ⟨fun c hc => hsource c (by simp [hc]), ?_⟩
  rw [hcut.stop_eq, hbytes, ← String.length_toList, hcut.source_eq]
  simp only [List.length_append]
  omega

/-- What comes behind an error does not move it. -/
theorem Diagnostic.place_correct_before_lambda :
    let err : Error := ⟨.lexical (.unexpectedCharacter '?'), 5, 6⟩
    (checkSource .generalize "-- l\n? λ").result = .error err ∧
      (Diagnostic.ofError "-- l\n? λ" err).place = some (err.span.place "-- l\n? λ") ∧
      err.span.place "-- l\n? λ" = ⟨2, 1⟩ := by
  intro err
  have h : (checkSource .generalize "-- l\n? λ").result = .error err := by decide +kernel
  have hbefore : (err.span.before "-- l\n? λ").toList.all (·.utf8Size = 1) = true := by decide +kernel
  have hplace := (Diagnostic.place_correct_iff h).1.2
    ⟨fun c hc => by simpa using List.all_eq_true.1 hbefore c hc, by decide⟩
  exact ⟨h, hplace, by decide +kernel⟩

/-- A comment with a character that takes two bytes moves the place of what follows. An error that is a
character of three bytes at the end of the text has no place. -/
theorem Diagnostic.place_incorrect :
    let err₁ : Error := ⟨.lexical (.unexpectedCharacter '?'), 6, 7⟩
    let err₂ : Error := ⟨.lexical (.unexpectedCharacter '→'), 0, 3⟩
    (checkSource .generalize "-- λ\n?").result = .error err₁ ∧
      err₁.span.place "-- λ\n?" = ⟨2, 1⟩ ∧
      (Diagnostic.ofError "-- λ\n?" err₁).place = some ⟨2, 2⟩ ∧
      (checkSource .generalize "→").result = .error err₂ ∧
      err₂.span.place "→" = ⟨1, 1⟩ ∧ (Diagnostic.ofError "→" err₂).place = none := by
  decide +kernel

end LetPoly
