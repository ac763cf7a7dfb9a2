import LetPoly.Proofs.Lexing
import Mathlib.Data.List.TakeWhile
import Mathlib.Data.String.Basic

/-!
# Reading cuts a text into pieces

Readings follow one another through a text: blanks and comments, a piece that is read as a token or as
a fault, blanks and comments again, and so on to the end. `Lexer.Tiling` is this picture, with the text
before each piece at hand, and it holds of every text and every place where reading may start
(`Cursor.exists_tiling`).

What a piece says is a matter of the text alone (`Lexer.Spells`). Words and numerals are as long as they
can be, on both sides. On the left this rests on an invariant of reading: no word and no numeral
reaches from what has been read into what is still to come (`Lexer.Parted`).
-/

namespace LetPoly

/-! ### Spans of a text -/

theorem utf8Length_eq (cs : List Char) : utf8Length cs = String.utf8Len cs := by
  induction cs with
  | nil => rfl
  | cons c cs ih => rw [utf8Length_cons, String.utf8Len_cons, ih, Nat.add_comm]

theorem utf8Length_toList (s : String) : utf8Length s.toList = s.utf8ByteSize := by
  rw [utf8Length_eq, String.utf8Len_toList]

theorem utf8Length_pos {cs : List Char} (h : cs ≠ []) : 0 < utf8Length cs := by
  cases cs with
  | nil => exact absurd rfl h
  | cons c cs =>
    have := c.utf8Size_pos
    rw [utf8Length_cons]
    omega

namespace Span

/-- The part of a text that a span covers. -/
def text (span : Span) (source : String) : String :=
  String.Pos.Raw.extract source ⟨span.start⟩ ⟨span.stop⟩

/-- The part of a text before a span. -/
def before (span : Span) (source : String) : String := text ⟨0, span.start⟩ source

/-- The part of a text after a span. -/
def after (span : Span) (source : String) : String := text ⟨span.stop, source.utf8ByteSize⟩ source

/-- The ends of a span are in their order, within a text, and not inside of a character. -/
structure Within (span : Span) (source : String) : Prop where
  start_le_stop : span.start ≤ span.stop
  start_valid : (String.Pos.Raw.mk span.start).IsValid source
  stop_valid : (String.Pos.Raw.mk span.stop).IsValid source

/-- A span cuts a text in three. -/
structure Cuts (span : Span) (source pre mid post : List Char) : Prop where
  source_eq : source = pre ++ mid ++ post
  start_eq : span.start = utf8Length pre
  stop_eq : span.stop = utf8Length (pre ++ mid)

namespace Cuts

variable {span : Span} {source : String} {pre mid post : List Char}

theorem text_eq (h : span.Cuts source.toList pre mid post) : span.text source = String.ofList mid := by
  rw [text, h.start_eq, h.stop_eq, ← String.ofList_toList (s := source), h.source_eq,
    utf8Length_append]
  simpa only [utf8Length_eq] using String.extract_of_valid pre mid post

/-- The text before a span. -/
theorem left (h : span.Cuts source.toList pre mid post) :
    Cuts ⟨0, span.start⟩ source.toList [] pre (mid ++ post) :=
  ⟨by simpa using h.source_eq, rfl, h.start_eq⟩

/-- The text after a span. -/
theorem right (h : span.Cuts source.toList pre mid post) :
    Cuts ⟨span.stop, source.utf8ByteSize⟩ source.toList (pre ++ mid) post [] where
  source_eq := by simpa using h.source_eq
  start_eq := h.stop_eq
  stop_eq := by rw [← h.source_eq, utf8Length_toList]

theorem before_eq (h : span.Cuts source.toList pre mid post) :
    span.before source = String.ofList pre := h.left.text_eq

theorem after_eq (h : span.Cuts source.toList pre mid post) :
    span.after source = String.ofList post := h.right.text_eq

theorem within (h : span.Cuts source.toList pre mid post) : span.Within source := by
  have valid : ∀ cs ds : List Char, source.toList = cs ++ ds →
      (String.Pos.Raw.mk (utf8Length cs)).IsValid source := by
    intro cs ds heq
    have hsource : source = String.ofList cs ++ String.ofList ds := by
      rw [← String.ofList_append, ← heq, String.ofList_toList]
    rw [hsource, utf8Length_eq, ← String.rawEndPos_ofList]
    exact String.Pos.Raw.isValid_rawEndPos.append_right _
  refine ⟨?_, ?_, ?_⟩
  · rw [h.start_eq, h.stop_eq, utf8Length_append]
    omega
  · rw [h.start_eq]
    exact valid pre (mid ++ post) (by simpa using h.source_eq)
  · rw [h.stop_eq]
    exact valid (pre ++ mid) post h.source_eq

theorem start_lt_stop (h : span.Cuts source.toList pre mid post) (hmid : mid ≠ []) :
    span.start < span.stop := by
  have := utf8Length_pos hmid
  rw [h.start_eq, h.stop_eq, utf8Length_append]
  omega

end Cuts

/-- The spans between some spans, from an offset on and up to another. -/
def gaps (start : Nat) (spans : List Span) (stop : Nat) : List Span :=
  match spans with
  | [] => [⟨start, stop⟩]
  | s :: spans => ⟨start, s.start⟩ :: gaps s.stop spans stop

end Span

/-! ### What a piece of text says -/

/-- The tokens that are words of the language. -/
def Token.isKeyword : Token → Bool
  | .kwLet | .kwIn | .kwFun | .kwTrue | .kwFalse => true
  | _ => false

namespace Lexer

/-- One digit or more. -/
def isNumeral (cs : List Char) : Bool := !cs.isEmpty && cs.all Char.isDigit

/-- A piece of text is of some kind, and no longer piece around it is. -/
def Longest (kind : List Char → Bool) (pre mid post : List Char) : Prop :=
  kind mid = true ∧
    ∀ x y, x <:+ pre → y <+: post → kind (x ++ mid ++ y) = true → x = [] ∧ y = []

/-- What a piece of a text says, given the text before and after it. -/
inductive Spells (pre mid post : List Char) : Except LexFault Token → Prop where
  | keyword {t : Token} : t.isKeyword = true → mid = t.text.toList → Longest isWord pre mid post →
    Spells pre mid post (.ok t)
  | name {x : String} : mid = x.toList → x ∉ Token.keywords → Longest isWord pre mid post →
    Spells pre mid post (.ok (.ident x))
  | symbol {t : Token} : t.isSymbol = true → mid = t.text.toList → Spells pre mid post (.ok t)
  /-- The other way to write a lambda. -/
  | lambda : mid = ['λ'] → Spells pre mid post (.ok .lambda)
  | number {n : Int64} : Longest isNumeral pre mid post → Nat.ofDigitChars 10 mid 0 ≤ maxInt →
    n.toInt = Nat.ofDigitChars 10 mid 0 → Spells pre mid post (.ok (.int n))
  | tooLarge : Longest isNumeral pre mid post → maxInt < Nat.ofDigitChars 10 mid 0 →
    Spells pre mid post (.error (.invalidNumber (String.ofList mid)))
  /-- A character that begins nothing. -/
  | unexpected {c : Char} : mid = [c] → isBlank c = false → Token.ofSymbol? c = none →
    c.isDigit = false → startsWord c = false →
    (c = '-' → post.head? ≠ some '-' ∧ post.head? ≠ some '>') →
    Spells pre mid post (.error (.unexpectedCharacter c))

/-- Blanks, and comments up to the end of their lines. The last comment may go up to the end of the
text, if this is where the blanks end. -/
inductive Skipped (atEnd : Prop) : List Char → Prop where
  | nil : Skipped atEnd []
  | blank {c : Char} {cs : List Char} : isBlank c = true → Skipped atEnd cs → Skipped atEnd (c :: cs)
  | comment {text cs : List Char} : '\n' ∉ text → Skipped atEnd cs →
    Skipped atEnd ('-' :: '-' :: (text ++ '\n' :: cs))
  | lastComment {text : List Char} : atEnd → '\n' ∉ text → Skipped atEnd ('-' :: '-' :: text)

/-! ### Nothing reaches over the end of a piece -/

/-- No word and no numeral reaches from the end of a text into what follows. -/
def Parted (pre rest : List Char) : Prop :=
  ∀ x y, x ≠ [] → y ≠ [] → x <:+ pre → y <+: rest →
    isWord (x ++ y) = false ∧ isNumeral (x ++ y) = false

theorem isWord_append {cs ds : List Char} (hcs : isWord cs = true)
    (hds : ∀ d ∈ ds, continuesWord d = true) : isWord (cs ++ ds) = true := by
  cases cs with
  | nil => simp [isWord] at hcs
  | cons c cs =>
    obtain ⟨hc, hcs⟩ := Bool.and_eq_true_iff.1 hcs
    simpa [isWord, hc] using ⟨List.all_eq_true.1 hcs, hds⟩

theorem isNumeral_iff {cs : List Char} :
    isNumeral cs = true ↔ cs ≠ [] ∧ ∀ c ∈ cs, c.isDigit = true := by
  simp [isNumeral]

/-- All characters of a word or numeral can continue a word. -/
theorem continuesWord_of_mem {cs : List Char} (h : isWord cs = true ∨ isNumeral cs = true) {c : Char}
    (hc : c ∈ cs) : continuesWord c = true := by
  rcases h with h | h
  · exact continuesWord_of_isWord h c hc
  · exact continuesWord_of_isDigit ((isNumeral_iff.1 h).2 c hc)

namespace Parted

variable {pre mid post : List Char}

theorem nil (rest : List Char) : Parted [] rest := by
  intro x y hx _ hsuffix
  exact absurd (List.suffix_nil.1 hsuffix) hx

/-- What reaches over the end of a longer text reaches over the end of its last part, or from before
this part over all of it. -/
theorem append (h : Parted pre (mid ++ post)) (hmid : Parted mid post) :
    Parted (pre ++ mid) post := by
  intro x y hx hy hsuffix hprefix
  obtain ⟨w, hw⟩ := hsuffix
  rcases List.append_eq_append_iff.1 hw with ⟨z, hpre, rfl⟩ | ⟨z, -, hz⟩
  · cases z with
    | nil => exact hmid _ y hx hy List.suffix_rfl hprefix
    | cons c z =>
      rw [List.append_assoc]
      refine h (c :: z) (mid ++ y) (by simp) (by simp [hy]) ⟨w, hpre.symm⟩ ?_
      exact (List.prefix_append_right_inj mid).2 hprefix
  · exact hmid x y hx hy ⟨z, hz.symm⟩ hprefix

/-- Nothing reaches over a character that is in no word. -/
theorem of_getLast? (h : ∀ c ∈ mid.getLast?, continuesWord c = false) : Parted mid post := by
  intro x y hx hy hsuffix _
  have hlast : x.getLast hx ∈ mid.getLast? := by
    rw [hsuffix.getLast hx, List.getLast?_eq_getLast_of_ne_nil]
    rfl
  have hnone : ¬ (isWord (x ++ y) = true ∨ isNumeral (x ++ y) = true) := by
    intro hkind
    have := continuesWord_of_mem hkind (List.mem_append_left y (List.getLast_mem hx))
    simp [h _ hlast] at this
  simpa using hnone

end Parted

theorem continuesWord_of_isBlank {c : Char} (h : isBlank c = true) : continuesWord c = false := by
  have hblank : [' ', '\t', '\n', '\r'].any continuesWord = false := by decide
  have hmem : c ∈ [' ', '\t', '\n', '\r'] := by simpa [isBlank, or_assoc] using h
  simpa using List.any_eq_false.1 hblank c hmem

theorem Skipped.mono {p q : Prop} {cs : List Char} (h : Skipped p cs) (hpq : p → q) :
    Skipped q cs := by
  induction h with
  | nil => exact .nil
  | blank hc _ ih => exact .blank hc ih
  | comment htext _ ih => exact .comment htext ih
  | lastComment hend htext => exact .lastComment (hpq hend) htext

/-- Before a piece there is a blank, if anything is skipped at all. -/
theorem Skipped.parted {cs : List Char} (h : Skipped False cs) (post : List Char) :
    Parted cs post := by
  refine .of_getLast? fun c hc => continuesWord_of_isBlank ?_
  induction h with
  | nil => simp at hc
  | @blank d cs hd _ ih =>
    cases cs with
    | nil =>
      obtain rfl : d = c := by simpa using hc
      exact hd
    | cons e cs => exact ih (by simpa using hc)
  | @comment text cs _ _ ih =>
    have hc : c ∈ ('\n' :: cs).getLast? := by
      rwa [← List.cons_append, ← List.cons_append, List.getLast?_append_cons] at hc
    cases cs with
    | nil =>
      obtain rfl : '\n' = c := by simpa using hc
      decide
    | cons e cs => exact ih (by simpa using hc)
  | lastComment hend => exact hend.elim

theorem Longest.parted_word {pre mid post : List Char} (h : Longest isWord pre mid post) :
    Parted mid post := by
  intro x y _ hy _ hprefix
  have hnone : ¬ (isWord (x ++ y) = true ∨ isNumeral (x ++ y) = true) := by
    intro hkind
    have hword := isWord_append h.1 fun d hd => continuesWord_of_mem hkind (List.mem_append_right x hd)
    exact hy (h.2 [] y (List.nil_suffix) hprefix (by simpa using hword)).2
  simpa using hnone

theorem Longest.parted_numeral {pre mid post : List Char} (h : Longest isNumeral pre mid post) :
    Parted mid post := by
  intro x y hx hy hsuffix hprefix
  obtain ⟨hmid, hdigits⟩ := isNumeral_iff.1 h.1
  constructor
  · -- a word does not start with a digit
    cases x with
    | nil => exact absurd rfl hx
    | cons d x =>
      have hd := hdigits d (hsuffix.subset List.mem_cons_self)
      rw [← Bool.not_eq_true]
      intro hword
      simp [isDigit_of_startsWord (Bool.and_eq_true_iff.1 hword).1] at hd
  · rw [← Bool.not_eq_true]
    intro hnum
    have hall := (isNumeral_iff.1 hnum).2
    have hlonger : isNumeral (mid ++ y) = true :=
      isNumeral_iff.2 ⟨by simp [hmid], fun c hc => (List.mem_append.1 hc).elim (hdigits c) fun hc =>
        hall c (List.mem_append_right x hc)⟩
    exact hy (h.2 [] y List.nil_suffix hprefix (by simpa using hlonger)).2

/-- Nothing reaches over the end of what has been read. -/
theorem Spells.parted {pre mid post : List Char} {v : Except LexFault Token}
    (h : Spells pre mid post v) : Parted mid post := by
  cases h with
  | keyword _ _ hlongest | name _ _ hlongest => exact hlongest.parted_word
  | number hlongest | tooLarge hlongest => exact hlongest.parted_numeral
  | @symbol t hsymbol hmid =>
    refine .of_getLast? fun c hc => ?_
    rw [hmid] at hc
    cases t with
    | lambda | arrow | equals | lparen | rparen | semicolon =>
      obtain rfl := Option.some.inj hc
      decide
    | _ => cases hsymbol
  | lambda hmid =>
    refine .of_getLast? fun c hc => ?_
    obtain rfl : 'λ' = c := by simpa [hmid] using hc
    decide
  | @unexpected c hmid _ _ hdigit hword _ =>
    intro x y hx _ hsuffix _
    obtain ⟨w, hw⟩ := hsuffix
    rw [hmid, List.append_eq_singleton_iff] at hw
    rcases hw with ⟨-, rfl⟩ | ⟨-, rfl⟩
    · simp [isWord, isNumeral, hdigit, hword]
    · exact absurd rfl hx

/-! ### One reading -/

/-- The longest run of characters that can follow a first one. -/
theorem Longest.of_run {kind : List Char → Bool} {p : Char → Bool}
    (hall : ∀ w, kind w = true → ∀ d ∈ w, p d = true) {pre cs : List Char} {c : Char}
    (hleft : ∀ x y, x ≠ [] → y ≠ [] → x <:+ pre → y <+: c :: cs → kind (x ++ y) = false)
    (hkind : kind (c :: cs.takeWhile p) = true) :
    Longest kind pre (c :: cs.takeWhile p) (cs.dropWhile p) := by
  refine ⟨hkind, fun x y hx hy hlonger => ?_⟩
  have hwhole : c :: cs = c :: cs.takeWhile p ++ cs.dropWhile p := by simp
  have hx : x = [] := by
    by_contra hne
    rw [List.append_assoc] at hlonger
    have := hleft x (c :: cs.takeWhile p ++ y) hne (by simp) hx
      (hwhole ▸ (List.prefix_append_right_inj _).2 hy)
    exact Bool.false_ne_true (this.symm.trans hlonger)
  refine ⟨hx, ?_⟩
  cases y with
  | nil => rfl
  | cons d y =>
    -- what follows the run begins with a character that cannot be in it
    have hd : p d = true := hall _ hlonger d (by simp)
    have hhead : (cs.dropWhile p).head? = some d := by
      obtain ⟨z, hz⟩ := hy
      rw [← hz]
      rfl
    have := List.head?_dropWhile_not p cs
    simp [hhead, hd] at this

theorem spells_ofSymbol? {pre post : List Char} {c : Char} {t : Token}
    (h : Token.ofSymbol? c = some t) : Spells pre [c] post (.ok t) := by
  have hmem : c ∈ ['(', ')', ';', '=', '\\', 'λ'] := by
    by_contra hne
    simp only [List.mem_cons, List.not_mem_nil, or_false, not_or] at hne
    simp [Token.ofSymbol?, hne] at h
  simp only [List.mem_cons, List.not_mem_nil, or_false] at hmem
  rcases hmem with rfl | rfl | rfl | rfl | rfl | rfl <;> cases h
  case inr.inr.inr.inr.inr => exact .lambda rfl
  all_goals exact .symbol rfl rfl

theorem spells_readNumber {pre mid post : List Char} (h : Longest isNumeral pre mid post) :
    Spells pre mid post (readNumber mid) := by
  unfold readNumber
  dsimp only
  split
  · rename_i hle
    refine .number h hle (Int64.toInt_ofNat_of_lt ?_)
    rw [maxInt] at hle
    omega
  · exact .tooLarge h (by omega)

theorem spells_ofWord {pre mid post : List Char} (h : Longest isWord pre mid post) :
    Spells pre mid post (.ok (Token.ofWord (String.ofList mid))) := by
  by_cases hkey : String.ofList mid ∈ Token.keywords
  · have hword : (Token.ofWord (String.ofList mid)).isKeyword = true ∧
        (Token.ofWord (String.ofList mid)).text = String.ofList mid := by
      generalize String.ofList mid = w at hkey ⊢
      simp only [Token.keywords, List.mem_cons, List.not_mem_nil, or_false] at hkey
      rcases hkey with rfl | rfl | rfl | rfl | rfl <;> exact ⟨rfl, rfl⟩
    exact .keyword hword.1 (by simp [hword.2]) h
  · rw [ofWord_of_notMem hkey]
    exact .name (by simp) hkey h

/-- What is read first, where there are no blanks in front. -/
theorem exists_lexeme {pre cs : List Char} (hne : cs ≠ []) (hblank : blankLength false cs = 0)
    (hparted : Parted pre cs) :
    ∃ mid post, cs = mid ++ post ∧ mid ≠ [] ∧ (lexeme cs).1 = mid.length ∧
      Spells pre mid post (lexeme cs).2 := by
  cases cs with
  | nil => exact absurd rfl hne
  | cons c cs =>
    cases hsymbol : Token.ofSymbol? c with
    | some t =>
      refine ⟨[c], cs, rfl, by simp, by simp [lexeme, hsymbol], ?_⟩
      simpa [lexeme, hsymbol] using spells_ofSymbol? hsymbol
    | none =>
      by_cases harrow : c = '-' ∧ cs.head? = some '>'
      · obtain ⟨rfl, hhead⟩ := harrow
        cases cs with
        | nil => simp at hhead
        | cons d cs =>
          obtain rfl : d = '>' := by simpa using hhead
          exact ⟨['-', '>'], cs, rfl, by simp, rfl, .symbol rfl rfl⟩
      by_cases hdigit : c.isDigit = true
      · have hlex : lexeme (c :: cs) = ((c :: cs.takeWhile Char.isDigit).length,
            readNumber (c :: cs.takeWhile Char.isDigit)) := by
          simp [lexeme, hsymbol, harrow, hdigit]
        refine ⟨c :: cs.takeWhile Char.isDigit, cs.dropWhile Char.isDigit, by simp, by simp,
          by rw [hlex], ?_⟩
        rw [hlex]
        refine spells_readNumber (.of_run (fun w hw => (isNumeral_iff.1 hw).2) ?_ ?_)
        · exact fun x y hx hy hsuffix hprefix => (hparted x y hx hy hsuffix hprefix).2
        · refine isNumeral_iff.2 ⟨List.cons_ne_nil _ _, List.forall_mem_cons.2 ⟨hdigit, ?_⟩⟩
          exact fun d hd => List.mem_takeWhile_imp hd
      by_cases hword : startsWord c = true
      · have hlex : lexeme (c :: cs) = ((c :: cs.takeWhile continuesWord).length,
            .ok (Token.ofWord (String.ofList (c :: cs.takeWhile continuesWord)))) := by
          simp [lexeme, hsymbol, harrow, hdigit, hword]
        refine ⟨c :: cs.takeWhile continuesWord, cs.dropWhile continuesWord, by simp, by simp,
          by rw [hlex], ?_⟩
        rw [hlex]
        refine spells_ofWord (.of_run (fun w hw => continuesWord_of_isWord hw) ?_ ?_)
        · exact fun x y hx hy hsuffix hprefix => (hparted x y hx hy hsuffix hprefix).1
        · refine Bool.and_eq_true_iff.2 ⟨hword, List.all_eq_true.2 ?_⟩
          exact fun d hd => List.mem_takeWhile_imp hd
      · have hlex : lexeme (c :: cs) = (1, .error (.unexpectedCharacter c)) := by
          simp [lexeme, hsymbol, harrow, hdigit, hword]
        have hskip : isBlank c = false ∧ ¬ (c = '-' ∧ cs.head? = some '-') := by
          unfold blankLength at hblank
          grind
        refine ⟨[c], cs, rfl, by simp, by rw [hlex]; rfl, ?_⟩
        rw [hlex]
        refine .unexpected rfl hskip.1 hsymbol (by simpa using hdigit) (by simpa using hword) ?_
        exact fun hc => ⟨fun hd => hskip.2 ⟨hc, hd⟩, fun hd => harrow ⟨hc, hd⟩⟩

/-- What is passed inside of a comment: the rest of its line, or of the text. -/
def InComment (atEnd : Prop) (cs : List Char) : Prop :=
  (atEnd ∧ '\n' ∉ cs) ∨ ∃ text ds, cs = text ++ '\n' :: ds ∧ '\n' ∉ text ∧ Skipped atEnd ds

/-- What is passed before a piece. -/
theorem exists_blanks (inComment : Bool) (cs : List Char) :
    ∃ gap rest, cs = gap ++ rest ∧ blankLength inComment cs = gap.length ∧
      blankLength false rest = 0 ∧
      if inComment then InComment (rest = []) gap else Skipped (rest = []) gap := by
  induction cs generalizing inComment with
  | nil =>
    refine ⟨[], [], rfl, rfl, rfl, ?_⟩
    split
    · exact .inl ⟨rfl, by simp⟩
    · exact .nil
  | cons c cs ih =>
    cases inComment with
    | true =>
      obtain ⟨gap, rest, rfl, hlength, hrest, hgap⟩ := ih (c != '\n')
      refine ⟨c :: gap, rest, rfl, by simp [blankLength, hlength], hrest, ?_⟩
      by_cases hc : c = '\n'
      · subst hc
        exact .inr ⟨[], gap, rfl, by simp, hgap⟩
      · have hgap : InComment (rest = []) gap := by simpa [hc] using hgap
        rcases hgap with ⟨hend, hnone⟩ | ⟨text, ds, rfl, hnone, hds⟩
        · exact .inl ⟨hend, by simp [Ne.symm hc, hnone]⟩
        · exact .inr ⟨c :: text, ds, rfl, by simp [Ne.symm hc, hnone], hds⟩
    | false =>
      by_cases hblank : isBlank c = true
      · obtain ⟨gap, rest, rfl, hlength, hrest, hgap⟩ := ih false
        exact ⟨c :: gap, rest, rfl, by simp [blankLength, hblank, hlength], hrest, .blank hblank hgap⟩
      by_cases hdashes : c = '-' ∧ cs.head? = some '-'
      · obtain ⟨gap, rest, hcs, hlength, hrest, hgap⟩ := ih true
        obtain ⟨rfl, hhead⟩ := hdashes
        refine ⟨'-' :: gap, rest, by rw [hcs]; rfl, by simp [blankLength, isBlank, hhead, hlength],
          hrest, ?_⟩
        -- the second dash is the first character inside of the comment
        obtain ⟨ds, rfl⟩ : ∃ ds, gap = '-' :: ds := by
          cases gap with
          | nil => cases cs <;> simp [blankLength] at hhead hlength
          | cons d ds => exact ⟨ds, by simpa [hcs] using hhead⟩
        rcases hgap with ⟨hend, hnone⟩ | ⟨text, es, heq, hnone, hes⟩
        · exact .lastComment hend fun hmem => hnone (List.mem_cons_of_mem _ hmem)
        · cases text with
          | nil => cases heq
          | cons d text =>
            obtain ⟨rfl, rfl⟩ := List.cons.inj heq
            exact .comment (fun hmem => hnone (List.mem_cons_of_mem _ hmem)) hes
      · exact ⟨[], c :: cs, rfl, by simp [blankLength, hblank, hdashes],
          by simp [blankLength, hblank, hdashes], .nil⟩

end Lexer

namespace Reading

/-- What was read, and where. -/
def placed (v : Except LexFault Token) (span : Span) : Reading :=
  match v with
  | .ok t => .ok ⟨t, span⟩
  | .error f => .error ⟨f, span⟩

/-- The end of a text of a given length. -/
def ended (length : Nat) : Reading := .ok ⟨.eof, length, length⟩

def span : Reading → Span
  | .ok t => t.span
  | .error f => f.span

/-- A token or a fault, without its place. -/
def value : Reading → Except LexFault Token
  | .ok t => .ok t.val
  | .error f => .error f.val

@[simp] theorem span_placed (v : Except LexFault Token) (s : Span) : span (placed v s) = s := by
  cases v <;> rfl

@[simp] theorem value_placed (v : Except LexFault Token) (s : Span) : value (placed v s) = v := by
  cases v <;> rfl

end Reading

namespace Cursor

/-- The reading of a call, counted from zero, when the reader is called again and again. -/
def nth (c : Cursor) : Nat → Reading
  | 0 => c.next.1
  | k + 1 => c.next.2.nth k

theorem skip_append (o : Nat) (cs ds : List Char) :
    skip ⟨o, cs ++ ds⟩ cs.length = ⟨o + utf8Length cs, ds⟩ := by
  simp [skip]

theorem next_eq (c : Cursor) :
    c.next = (.placed (Lexer.lexeme c.skipBlanks.rest).2 ⟨c.skipBlanks.offset,
      (c.skipBlanks.skip (Lexer.lexeme c.skipBlanks.rest).1).offset⟩,
      c.skipBlanks.skip (Lexer.lexeme c.skipBlanks.rest).1) := by
  unfold next
  cases h : (Lexer.lexeme c.skipBlanks.rest).2 <;> simp only [h] <;> rfl

theorem next_nil (o : Nat) : next ⟨o, []⟩ = (.ended o, ⟨o, []⟩) := by
  simp [next, skipBlanks, skip, Lexer.blankLength, Lexer.lexeme, Reading.ended]

theorem nth_nil (o k : Nat) : nth ⟨o, []⟩ k = .ended o := by
  induction k with
  | zero => rw [nth, next_nil]
  | succ k ih => rw [nth, next_nil, ih]

open Lexer in
/-- One call, after `pre` has been read. Either only blanks and comments are left, or they are followed
by a piece, and the call goes on behind it. -/
theorem next_cases {pre rest : List Char} (h : Parted pre rest) :
    (Skipped True rest ∧ skipBlanks ⟨utf8Length pre, rest⟩ = ⟨utf8Length (pre ++ rest), []⟩) ∨
    ∃ gap mid post v, rest = gap ++ (mid ++ post) ∧ Skipped False gap ∧ mid ≠ [] ∧
      Spells (pre ++ gap) mid post v ∧ Parted (pre ++ gap ++ mid) post ∧
      (skipBlanks ⟨utf8Length pre, rest⟩).rest ≠ [] ∧
      next ⟨utf8Length pre, rest⟩ =
        (.placed v ⟨utf8Length (pre ++ gap), utf8Length (pre ++ gap ++ mid)⟩,
          ⟨utf8Length (pre ++ gap ++ mid), post⟩) := by
  obtain ⟨gap, left, rfl, hlength, hleft, hgap⟩ := exists_blanks false rest
  have hskip : skipBlanks ⟨utf8Length pre, gap ++ left⟩ = ⟨utf8Length (pre ++ gap), left⟩ := by
    rw [skipBlanks, hlength, skip_append, utf8Length_append]
  by_cases hend : left = []
  · subst hend
    refine .inl ⟨?_, by simpa using hskip⟩
    simpa using Skipped.mono hgap fun _ => trivial
  · have hskipped : Skipped False gap := Skipped.mono hgap hend
    have hparted := h.append (hskipped.parted left)
    obtain ⟨mid, post, rfl, hmid, hlex, hspells⟩ := exists_lexeme hend hleft hparted
    refine .inr ⟨gap, mid, post, _, rfl, hskipped, hmid, hspells, hparted.append hspells.parted,
      ?_, ?_⟩
    · rwa [hskip]
    · rw [next_eq, hskip, hlex, skip_append, utf8Length_append (pre ++ gap)]

end Cursor

/-! ### All readings -/

/-- The readings of a text after `pre`: blanks and comments, a piece with what it says and its place,
and so on, with blanks and comments at the end. -/
inductive Lexer.Tiling : List Char → List Char → List Reading → Prop where
  | done {pre gap : List Char} : Skipped True gap → Tiling pre gap []
  | piece {pre gap mid post : List Char} {v : Except LexFault Token} {rs : List Reading} :
    Skipped False gap → mid ≠ [] → Spells (pre ++ gap) mid post v →
    Tiling (pre ++ gap ++ mid) post rs →
    Tiling pre (gap ++ (mid ++ post))
      (.placed v ⟨utf8Length (pre ++ gap), utf8Length (pre ++ gap ++ mid)⟩ :: rs)

open Lexer in
/-- From any place that nothing reaches over, the readings of the rest of the text tile it. After them
there is only the end of the text, however often the reader is called. -/
theorem Cursor.exists_tiling {pre rest : List Char} (h : Parted pre rest) :
    ∃ rs, Tiling pre rest rs ∧
      readings ⟨utf8Length pre, rest⟩ = rs ++ [.ended (utf8Length (pre ++ rest))] ∧
      ∀ k, nth ⟨utf8Length pre, rest⟩ k = rs.getD k (.ended (utf8Length (pre ++ rest))) := by
  induction hlen : rest.length using Nat.strong_induction_on generalizing pre rest with
  | _ n ih =>
    rcases next_cases h with ⟨hskipped, hskip⟩ | hpiece
    · have hnext : next ⟨utf8Length pre, rest⟩ =
          (.ended (utf8Length (pre ++ rest)), ⟨utf8Length (pre ++ rest), []⟩) := by
        rw [next_congr (d := ⟨utf8Length (pre ++ rest), []⟩) (by rw [hskip]; rfl), next_nil]
      refine ⟨[], .done hskipped, ?_, fun k => ?_⟩
      · rw [readings, hskip, if_pos rfl, hnext]
        rfl
      · cases k with
        | zero => rw [nth, hnext]; rfl
        | succ k => rw [nth, hnext, nth_nil]; rfl
    · obtain ⟨gap, mid, post, v, rfl, hgap, hmid, hspells, hparted, hrest, hnext⟩ := hpiece
      have hlt : post.length < n := by
        have := List.length_pos_iff.2 hmid
        simp only [List.length_append] at hlen
        omega
      obtain ⟨rs, htiling, hreadings, hnth⟩ := ih post.length hlt hparted rfl
      have htotal : pre ++ gap ++ mid ++ post = pre ++ (gap ++ (mid ++ post)) := by simp
      rw [htotal] at hreadings hnth
      refine ⟨_, .piece hgap hmid hspells htiling, ?_, fun k => ?_⟩
      · rw [readings, if_neg hrest, hnext, hreadings, List.cons_append]
      · cases k with
        | zero => rw [nth, hnext]; rfl
        | succ k => rw [nth, hnext, hnth]; rfl

namespace Lexer.Tiling

variable {pre rest : List Char} {rs : List Reading}

theorem length_le (h : Tiling pre rest rs) : rs.length ≤ rest.length := by
  induction h with
  | done _ => simp
  | @piece _ gap mid post _ _ _ hmid _ _ ih =>
    have := List.length_pos_iff.2 hmid
    simp only [List.length_cons, List.length_append]
    omega

/-- Every reading is of a piece of the text, and behind what comes before. -/
theorem exists_spells (h : Tiling pre rest rs) : ∀ r ∈ rs, utf8Length pre ≤ r.span.start ∧
    ∃ x mid post, r.span.Cuts (pre ++ rest) x mid post ∧ mid ≠ [] ∧ Spells x mid post r.value := by
  induction h with
  | done _ => simp
  | @piece pre gap mid post v rs _ hmid hspells _ ih =>
    refine List.forall_mem_cons.2 ⟨⟨?_, pre ++ gap, mid, post, ?_, hmid, ?_⟩, fun r hr => ?_⟩
    · simp
    · rw [Reading.span_placed]
      exact ⟨by simp, rfl, rfl⟩
    · rwa [Reading.value_placed]
    · obtain ⟨hle, hcut⟩ := ih r hr
      refine ⟨?_, by simpa using hcut⟩
      simp only [utf8Length_append] at hle
      omega

theorem pairwise_span (h : Tiling pre rest rs) :
    (rs.map Reading.span).Pairwise fun s t => s.stop ≤ t.start := by
  induction h with
  | done _ => exact .nil
  | piece _ _ _ htiling ih =>
    refine List.pairwise_cons.2 ⟨fun s hs => ?_, ih⟩
    obtain ⟨r, hr, rfl⟩ := List.mem_map.1 hs
    simpa using (htiling.exists_spells r hr).1

/-- Between the pieces there are blanks and comments. -/
theorem exists_skipped (h : Tiling pre rest rs) :
    ∀ g ∈ Span.gaps (utf8Length pre) (rs.map Reading.span) (utf8Length (pre ++ rest)),
      ∃ x mid post, g.Cuts (pre ++ rest) x mid post ∧ Skipped (post = []) mid := by
  induction h with
  | @done pre gap hgap =>
    intro g hg
    obtain rfl : g = ⟨utf8Length pre, utf8Length (pre ++ gap)⟩ := by simpa [Span.gaps] using hg
    exact ⟨pre, gap, [], ⟨by simp, rfl, rfl⟩, hgap.mono fun _ => rfl⟩
  | @piece pre gap mid post v rs hgap _ _ _ ih =>
    have htotal : pre ++ gap ++ mid ++ post = pre ++ (gap ++ (mid ++ post)) := by simp
    rw [htotal] at ih
    rw [List.map_cons, Reading.span_placed, Span.gaps]
    refine List.forall_mem_cons.2 ⟨?_, ih⟩
    exact ⟨pre, gap, mid ++ post, ⟨by simp, rfl, rfl⟩, hgap.mono False.elim⟩

end Lexer.Tiling

/-- **Reading cuts a text into pieces.** Calling the reader again and again, also after faults, gives
at most as many readings as the text has characters, and from then on the end of the text. Their spans
are not empty, lie in the text at the borders of characters and follow one another. Each reading is
what the text at its span says: a keyword or a name, both as long as they can be; a symbol; or a
numeral, as long as it can be, which is a fault exactly if it is larger than the largest integer. Any
other character that begins nothing is a fault as well. Between the spans, before the first and after
the last there are only blanks and comments. -/
theorem readings_partition (source : String) :
    ∃ rs : List Reading, rs.length ≤ source.length ∧
      (∀ k, (Cursor.ofString source).nth k = rs.getD k (.ended source.utf8ByteSize)) ∧
      (∀ r ∈ rs, r.span.start < r.span.stop ∧ r.span.Within source ∧
        Lexer.Spells (r.span.before source).toList (r.span.text source).toList
          (r.span.after source).toList r.value) ∧
      ((rs.map Reading.span).Pairwise fun s t => s.stop ≤ t.start) ∧
      ∀ g ∈ Span.gaps 0 (rs.map Reading.span) source.utf8ByteSize, g.Within source ∧
        Lexer.Skipped (g.stop = source.utf8ByteSize) (g.text source).toList := by
  obtain ⟨rs, htiling, -, hnth⟩ := Cursor.exists_tiling (Lexer.Parted.nil source.toList)
  have hgaps := htiling.exists_skipped
  simp only [List.nil_append, utf8Length_toList] at hnth hgaps
  refine ⟨rs, ?_, hnth, fun r hr => ?_, htiling.pairwise_span, fun g hg => ?_⟩
  · simpa only [String.length_toList] using htiling.length_le
  · obtain ⟨-, x, mid, post, hcut, hmid, hspells⟩ := htiling.exists_spells r hr
    refine ⟨hcut.start_lt_stop hmid, hcut.within, ?_⟩
    simpa [hcut.before_eq, hcut.text_eq, hcut.after_eq] using hspells
  · obtain ⟨x, mid, post, hcut, hskipped⟩ := hgaps g hg
    refine ⟨hcut.within, ?_⟩
    rw [hcut.text_eq, String.toList_ofList]
    refine hskipped.mono fun hpost => ?_
    rw [hcut.stop_eq, ← utf8Length_toList, hcut.source_eq, hpost, List.append_nil]

end LetPoly
