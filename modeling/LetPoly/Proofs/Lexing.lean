import LetPoly.Token.Lexer

/-!
# Writing tokens and reading them back

A token that a text can hold (`Token.Writable`) is read back from its own characters when what
follows cannot be taken for more of it (`Lexer.lexeme_text`). A line of tokens is written with a blank
between any two neighbours that would run together otherwise, so reading a line gives its tokens and
then goes on behind it (`Cursor.readings_chars`). The other way round, every token that is read from a
text is writable, except for the end of the text (`writable_of_tokenize`).
-/

namespace LetPoly

/-- The words that are no names. -/
def Token.keywords : List String := ["let", "in", "fun", "true", "false"]

namespace Lexer

/-- A letter or an underscore, and then letters, digits, underscores and primes. -/
def isWord : List Char → Bool
  | [] => false
  | c :: cs => startsWord c && cs.all continuesWord

/-- What a text can have for a name: a word that is not a keyword. -/
def IsName (x : String) : Prop := isWord x.toList = true ∧ x ∉ Token.keywords

instance (x : String) : Decidable (IsName x) :=
  inferInstanceAs (Decidable (isWord x.toList = true ∧ x ∉ Token.keywords))

end Lexer

namespace Token

/-- Whether a text can hold a token: names are words other than keywords, there are no negative
numbers, and the end of the text is not written. -/
def Writable : Token → Prop
  | .int n => 0 ≤ n.toInt
  | .ident x => Lexer.IsName x
  | .eof => False
  | .kwLet | .kwIn | .kwFun | .kwTrue | .kwFalse => True
  | .lambda | .arrow | .equals | .lparen | .rparen | .semicolon => True

/-- Tokens whose end does not depend on what follows. -/
def isSymbol : Token → Bool
  | .lambda | .arrow | .equals | .lparen | .rparen | .semicolon => true
  | _ => false

end Token

/-! ### Characters -/

namespace Lexer

/-- What follows is not taken for more of a word or of a number. -/
def Stops (cs : List Char) : Prop := ∀ c ∈ cs.head?, continuesWord c = false

theorem Stops.nil : Stops [] := by simp [Stops]

theorem Stops.cons {c : Char} (h : continuesWord c = false) (cs : List Char) : Stops (c :: cs) := by
  simpa [Stops] using h

theorem continuesWord_of_isDigit {c : Char} (h : c.isDigit = true) : continuesWord c = true := by
  simp [continuesWord, Char.isAlphanum, h]

theorem continuesWord_of_startsWord {c : Char} (h : startsWord c = true) :
    continuesWord c = true := by
  rcases Bool.or_eq_true_iff.1 h with h | h
  · simp [continuesWord, Char.isAlphanum, h]
  · simp [continuesWord, h]

theorem continuesWord_of_isWord {cs : List Char} (h : isWord cs = true) :
    ∀ c ∈ cs, continuesWord c = true := by
  cases cs with
  | nil => simp
  | cons c cs =>
    obtain ⟨hc, hcs⟩ := Bool.and_eq_true_iff.1 h
    exact List.forall_mem_cons.2 ⟨continuesWord_of_startsWord hc, List.all_eq_true.1 hcs⟩

theorem isDigit_of_startsWord {c : Char} (h : startsWord c = true) : c.isDigit = false := by
  -- digits come before the letters and the underscore
  have hlt : '9'.val < c.val := by
    rcases Bool.or_eq_true_iff.1 h with h | h
    · rcases Bool.or_eq_true_iff.1 h with hupper | hlower
      · exact UInt32.lt_of_lt_of_le (by decide) (of_decide_eq_true hupper).1
      · exact UInt32.lt_of_lt_of_le (by decide) (of_decide_eq_true (Bool.and_eq_true_iff.1 hlower).1)
    · obtain rfl : c = '_' := by simpa using h
      decide
  rw [← Bool.not_eq_true]
  intro hdigit
  have hle : c.val ≤ '9'.val := of_decide_eq_true (Bool.and_eq_true_iff.1 hdigit).2
  exact UInt32.not_le.2 hlt hle

theorem ne_of_continuesWord {c d : Char} (hc : continuesWord c = true)
    (hd : continuesWord d = false) : c ≠ d := by
  rintro rfl
  simp [hc] at hd

/-- A character of a word or of a number is no symbol. -/
theorem ofSymbol?_of_continuesWord {c : Char} (h : continuesWord c = true) :
    Token.ofSymbol? c = none := by
  have hstop : ['(', ')', ';', '=', '\\', 'λ'].any continuesWord = false := by decide
  have hne : c ∉ ['(', ')', ';', '=', '\\', 'λ'] := fun hmem => List.any_eq_false.1 hstop c hmem h
  simp only [List.mem_cons, List.not_mem_nil, or_false, not_or] at hne
  simp [Token.ofSymbol?, hne]

theorem blankLength_of_continuesWord {c : Char} (h : continuesWord c = true) (cs : List Char) :
    blankLength false (c :: cs) = 0 := by
  have hstop : [' ', '\t', '\n', '\r', '-'].any continuesWord = false := by decide
  have hne : c ∉ [' ', '\t', '\n', '\r', '-'] := fun hmem => List.any_eq_false.1 hstop c hmem h
  simp only [List.mem_cons, List.not_mem_nil, or_false, not_or] at hne
  simp [blankLength, isBlank, hne]

/-- A run of characters is taken whole, and nothing behind it. -/
theorem takeWhile_append_stops {p : Char → Bool} (hp : ∀ c, p c = true → continuesWord c = true)
    {ds : List Char} (hds : ∀ d ∈ ds, p d = true) {cs : List Char} (hcs : Stops cs) :
    (ds ++ cs).takeWhile p = ds := by
  rw [List.takeWhile_append_of_pos hds]
  cases cs with
  | nil => simp
  | cons c cs =>
    have hc : p c = false := by
      cases h : p c with
      | false => rfl
      | true => exact absurd (hp c h) (by simp [hcs c rfl])
    simp [hc]

/-! ### One token -/

/-- Words are read whole. -/
theorem lexeme_word {w cs : List Char} (hw : isWord w = true) (hcs : Stops cs) :
    lexeme (w ++ cs) = (w.length, .ok (Token.ofWord (String.ofList w))) := by
  cases w with
  | nil => simp [isWord] at hw
  | cons c w =>
    obtain ⟨hc, hrest⟩ := Bool.and_eq_true_iff.1 hw
    have hcont := continuesWord_of_startsWord hc
    have hne := ne_of_continuesWord hcont (d := '-') (by decide)
    have htake := takeWhile_append_stops (fun _ h => h) (List.all_eq_true.1 hrest) hcs
    simp [lexeme, ofSymbol?_of_continuesWord hcont, hne, isDigit_of_startsWord hc, hc, htake]

/-- Digits are read whole. -/
theorem lexeme_digits {ds cs : List Char} (hne : ds ≠ []) (hds : ∀ d ∈ ds, d.isDigit = true)
    (hcs : Stops cs) : lexeme (ds ++ cs) = (ds.length, readNumber ds) := by
  cases ds with
  | nil => exact absurd rfl hne
  | cons d ds =>
    have hd := hds d (by simp)
    have hcont := continuesWord_of_isDigit hd
    have hne := ne_of_continuesWord hcont (d := '-') (by decide)
    have htake := takeWhile_append_stops (fun _ h => continuesWord_of_isDigit h)
      (fun c hc => hds c (List.mem_cons_of_mem d hc)) hcs
    simp [lexeme, ofSymbol?_of_continuesWord hcont, hne, hd, htake]

theorem toList_text_int {n : Int64} (hn : 0 ≤ n.toInt) :
    (Token.int n).text.toList = Nat.toDigits 10 n.toInt.toNat := by
  obtain ⟨k, hk⟩ := Int.eq_ofNat_of_zero_le hn
  rw [Token.text, hk]
  exact Nat.toList_repr

/-- A number is read back from its digits. -/
theorem readNumber_toDigits {n : Int64} (hn : 0 ≤ n.toInt) :
    readNumber (Nat.toDigits 10 n.toInt.toNat) = .ok (.int n) := by
  have hlt := n.toInt_lt
  have hle : n.toInt.toNat ≤ maxInt := by
    rw [maxInt]
    omega
  have hback : Int64.ofNat n.toInt.toNat = n := by
    rw [← Int64.ofInt_eq_ofNat, Int.toNat_of_nonneg hn, Int64.ofInt_toInt]
  simp only [readNumber, Nat.ofDigitChars_ten_toDigits, if_pos hle, hback]

theorem ofWord_of_notMem {x : String} (hx : x ∉ Token.keywords) : Token.ofWord x = .ident x := by
  simp only [Token.keywords, List.mem_cons, List.not_mem_nil, or_false, not_or] at hx
  simp [Token.ofWord, hx]

/-- **A token is read back from its characters,** if it is a symbol or what follows stops it. -/
theorem lexeme_text {t : Token} (ht : t.Writable) {cs : List Char}
    (hcs : t.isSymbol = true ∨ Stops cs) :
    lexeme (t.text.toList ++ cs) = (t.text.toList.length, .ok t) := by
  have word : ∀ w : String, isWord w.toList = true → Stops cs →
      lexeme (w.toList ++ cs) = (w.toList.length, .ok (Token.ofWord w)) := by
    intro w hw hcs
    rw [lexeme_word hw hcs, String.ofList_toList]
  cases t with
  | lambda | arrow | equals | lparen | rparen | semicolon =>
    simp [Token.text, lexeme, Token.ofSymbol?]
  | kwLet | kwIn | kwFun | kwTrue | kwFalse =>
    have hcs := hcs.resolve_left (by simp [Token.isSymbol])
    exact word _ (by decide) hcs
  | ident x =>
    have hcs := hcs.resolve_left (by simp [Token.isSymbol])
    rw [Token.text, word x ht.1 hcs, ofWord_of_notMem ht.2]
  | int n =>
    have hcs := hcs.resolve_left (by simp [Token.isSymbol])
    have hdigits : ∀ d ∈ Nat.toDigits 10 n.toInt.toNat, d.isDigit = true := fun d hd =>
      Nat.isDigit_of_mem_toDigits (by omega) (by omega) hd
    rw [toList_text_int ht, lexeme_digits Nat.toDigits_ne_nil hdigits hcs, readNumber_toDigits ht]
  | eof => exact False.elim ht

/-- No token begins with a blank or a comment. -/
theorem blankLength_text {t : Token} (ht : t.Writable) (cs : List Char) :
    blankLength false (t.text.toList ++ cs) = 0 := by
  have word : ∀ w : List Char, isWord w = true → blankLength false (w ++ cs) = 0 := by
    intro w hw
    cases w with
    | nil => simp [isWord] at hw
    | cons c w =>
      have hc := continuesWord_of_startsWord (Bool.and_eq_true_iff.1 hw).1
      exact blankLength_of_continuesWord hc _
  cases t with
  | lambda | arrow | equals | lparen | rparen | semicolon =>
    simp [Token.text, blankLength, isBlank]
  | kwLet | kwIn | kwFun | kwTrue | kwFalse => exact word _ (by decide)
  | ident x => exact word _ ht.1
  | int n =>
    rw [toList_text_int ht]
    cases hds : Nat.toDigits 10 n.toInt.toNat with
    | nil => exact absurd hds Nat.toDigits_ne_nil
    | cons d ds =>
      have hd : d.isDigit = true := Nat.isDigit_of_mem_toDigits (b := 10) (by omega) (by omega)
        (hds ▸ List.mem_cons_self)
      exact blankLength_of_continuesWord (continuesWord_of_isDigit hd) _
  | eof => exact False.elim ht

end Lexer

/-! ### Lines of tokens -/

namespace Cursor

theorem next_congr {c d : Cursor} (h : c.skipBlanks = d.skipBlanks) : c.next = d.next := by
  unfold next
  rw [h]

/-- What is read depends only on what comes after blanks. -/
theorem readings_congr {c d : Cursor} (h : c.skipBlanks = d.skipBlanks) :
    c.readings = d.readings := by
  rw [readings.eq_def c, readings.eq_def d, h, next_congr h]

theorem skipBlanks_blank {c : Char} (hc : Lexer.isBlank c = true) (o : Nat) (cs : List Char) :
    skipBlanks ⟨o, c :: cs⟩ = skipBlanks ⟨o + c.utf8Size, cs⟩ := by
  simp [skipBlanks, skip, Lexer.blankLength, hc, Nat.add_assoc]

theorem readings_blank {c : Char} (hc : Lexer.isBlank c = true) (o : Nat) (cs : List Char) :
    readings ⟨o, c :: cs⟩ = readings ⟨o + c.utf8Size, cs⟩ :=
  readings_congr (skipBlanks_blank hc o cs)

theorem readings_nil (o : Nat) : readings ⟨o, []⟩ = [.ok ⟨.eof, o, o⟩] := by
  rw [readings]
  simp [skipBlanks, skip, Lexer.blankLength, next, Lexer.lexeme]

theorem readings_text {t : Token} (ht : t.Writable) (o : Nat) {cs : List Char}
    (hcs : t.isSymbol = true ∨ Lexer.Stops cs) :
    readings ⟨o, t.text.toList ++ cs⟩ =
      .ok ⟨t, o, o + utf8Length t.text.toList⟩ ::
        readings ⟨o + utf8Length t.text.toList, cs⟩ := by
  have hskip : skipBlanks ⟨o, t.text.toList ++ cs⟩ = ⟨o, t.text.toList ++ cs⟩ := by
    simp [skipBlanks, skip, Lexer.blankLength_text ht]
  have hnext : next ⟨o, t.text.toList ++ cs⟩ =
      (.ok ⟨t, o, o + utf8Length t.text.toList⟩, ⟨o + utf8Length t.text.toList, cs⟩) := by
    simp [next, hskip, Lexer.lexeme_text ht hcs, skip]
  have hne : t.text.toList ++ cs ≠ [] := by
    intro hnil
    have hlex := Lexer.lexeme_text ht hcs
    rw [hnil] at hlex
    obtain rfl : Token.eof = t := Except.ok.inj (Prod.mk.inj hlex).2
    exact ht
  rw [readings, hskip, hnext, if_neg hne]

/-- What is written between two neighbours. -/
def gap (t u : Token) : List Char := if t.spaced u then [' '] else []

theorem chars_cons_cons (t u : Token) (ts : List Token) :
    Token.chars (t :: u :: ts) = t.text.toList ++ (gap t u ++ Token.chars (u :: ts)) := by
  rw [Token.chars, gap]
  split <;> rfl

theorem exists_chars_cons (t : Token) (ts : List Token) :
    ∃ cs, Token.chars (t :: ts) = t.text.toList ++ cs := by
  cases ts with
  | nil => exact ⟨[], by simp [Token.chars]⟩
  | cons u ts => exact ⟨_, chars_cons_cons t u ts⟩

theorem readings_gap (t u : Token) (o : Nat) (cs : List Char) :
    readings ⟨o, gap t u ++ cs⟩ = readings ⟨o + utf8Length (gap t u), cs⟩ := by
  unfold gap
  split
  · exact readings_blank (by decide) o cs
  · rfl

/-- Neighbours do not run together. -/
theorem stops_gap (t u : Token) (cs : List Char) :
    t.isSymbol = true ∨ Lexer.Stops (gap t u ++ (u.text.toList ++ cs)) := by
  cases hspaced : t.spaced u with
  | true => exact .inr (by simpa [gap, hspaced] using Lexer.Stops.cons (by decide) _)
  | false =>
    by_cases ht : t.isSymbol = true
    · exact .inl ht
    · right
      simp only [gap, hspaced, Bool.false_eq_true, if_false, List.nil_append]
      -- only brackets that close and semicolons follow other tokens directly
      cases u with
      | rparen | semicolon => exact .cons (by decide) _
      | _ => cases t <;> simp [Token.spaced, Token.isSymbol] at hspaced ht

/-- **A line is read back:** its tokens, and then what comes behind it. -/
theorem readings_chars (ts : List Token) (hts : ∀ t ∈ ts, t.Writable) (o : Nat) {tail : List Char}
    (htail : Lexer.Stops tail) :
    ∃ toks : List (Located Token), toks.map Located.val = ts ∧
      readings ⟨o, Token.chars ts ++ tail⟩ =
        toks.map .ok ++ readings ⟨o + utf8Length (Token.chars ts), tail⟩ := by
  induction ts generalizing o with
  | nil => exact ⟨[], rfl, by simp [Token.chars]⟩
  | cons t ts ih =>
    have ht := hts t (by simp)
    cases ts with
    | nil =>
      refine ⟨[⟨t, o, o + utf8Length t.text.toList⟩], rfl, ?_⟩
      simpa [Token.chars] using readings_text ht o (.inr htail)
    | cons u ts =>
      obtain ⟨toks, hvals, hread⟩ := ih (fun v hv => hts v (List.mem_cons_of_mem t hv))
        (o + utf8Length t.text.toList + utf8Length (gap t u))
      refine ⟨⟨t, o, o + utf8Length t.text.toList⟩ :: toks, by simp [hvals], ?_⟩
      have hstop : t.isSymbol = true ∨ Lexer.Stops (gap t u ++ (Token.chars (u :: ts) ++ tail)) := by
        obtain ⟨cs, hcs⟩ := exists_chars_cons u ts
        rw [hcs, List.append_assoc]
        exact stops_gap t u _
      simp only [chars_cons_cons, List.append_assoc, utf8Length_append]
      rw [readings_text ht o hstop, readings_gap, hread]
      simp [Nat.add_assoc]

/-- Lines are read one after the other. -/
theorem readings_lines (ls : List (List Token)) (hls : ∀ ts ∈ ls, ∀ t ∈ ts, t.Writable) (o : Nat) :
    ∃ toks : List (Located Token), toks.map Located.val = ls.flatten ++ [.eof] ∧
      readings ⟨o, ls.flatMap fun ts => Token.chars ts ++ ['\n']⟩ = toks.map .ok := by
  induction ls generalizing o with
  | nil => exact ⟨[⟨.eof, o, o⟩], rfl, readings_nil o⟩
  | cons ts ls ih =>
    obtain ⟨hts, hls⟩ := List.forall_mem_cons.1 hls
    have hstop : Lexer.Stops ('\n' :: ls.flatMap fun ts => Token.chars ts ++ ['\n']) :=
      .cons (by decide) _
    obtain ⟨first, hfirst, hread⟩ := readings_chars ts hts o hstop
    obtain ⟨more, hmore, hread'⟩ := ih hls (o + utf8Length (Token.chars ts) + Char.utf8Size '\n')
    refine ⟨first ++ more, by simp [hfirst, hmore], ?_⟩
    rw [List.flatMap_cons, List.append_assoc, List.singleton_append, hread,
      readings_blank (by decide), hread', List.map_append]

end Cursor

/-! ### Whole texts -/

/-- Collecting values of which none has failed. -/
theorem mapM_id_eq_ok_iff {ε α : Type} {rs : List (Except ε α)} {as : List α} :
    rs.mapM id = .ok as ↔ rs = as.map .ok := by
  induction rs generalizing as with
  | nil => cases as <;> simp [pure, Except.pure]
  | cons r rs ih =>
    cases r with
    | error e => cases as <;> simp [bind, Except.bind]
    | ok a =>
      have hcons : (.ok a :: rs).mapM id = (rs.mapM id).map (a :: ·) := by
        rw [List.mapM_cons]
        cases rs.mapM id <;> rfl
      rw [hcons]
      cases as with
      | nil => cases rs.mapM id <;> simp [Except.map]
      | cons b as =>
        rw [List.map_cons, List.cons.injEq, ← ih]
        cases rs.mapM id <;> simp [Except.map]

theorem tokenize_eq_ok_iff {source : String} {toks : List (Located Token)} :
    tokenize source = .ok toks ↔ (Cursor.ofString source).readings = toks.map .ok :=
  mapM_id_eq_ok_iff

theorem tokenize_line {ts : List Token} (hts : ∀ t ∈ ts, t.Writable) :
    ∃ toks, tokenize (Token.line ts) = .ok toks ∧ toks.map Located.val = ts ++ [.eof] := by
  obtain ⟨toks, hvals, hread⟩ := Cursor.readings_chars ts hts 0 .nil
  rw [List.append_nil, Cursor.readings_nil] at hread
  let stop := 0 + utf8Length (Token.chars ts)
  refine ⟨toks ++ [⟨.eof, stop, stop⟩], tokenize_eq_ok_iff.2 ?_, by simp [hvals]⟩
  rw [Cursor.ofString, Token.line, String.toList_ofList, hread, List.map_append]
  rfl

theorem tokenize_lines {ls : List (List Token)} (hls : ∀ ts ∈ ls, ∀ t ∈ ts, t.Writable) :
    ∃ toks, tokenize (String.join (ls.map fun ts => Token.line ts ++ "\n")) = .ok toks ∧
      toks.map Located.val = ls.flatten ++ [.eof] := by
  obtain ⟨toks, hvals, hread⟩ := Cursor.readings_lines ls hls 0
  refine ⟨toks, tokenize_eq_ok_iff.2 ?_, hvals⟩
  rw [← hread, Cursor.ofString]
  simp [Token.line, List.flatMap_def, Function.comp_def]

namespace Lexer

theorem writable_of_ofSymbol? {c : Char} {t : Token} (h : Token.ofSymbol? c = some t) :
    t.Writable := by
  unfold Token.ofSymbol? at h
  repeat' split at h
  all_goals cases h
  all_goals trivial

theorem writable_ofWord {w : List Char} (hw : isWord w = true) :
    (Token.ofWord (String.ofList w)).Writable := by
  unfold Token.ofWord
  repeat' split
  all_goals try trivial
  refine ⟨by simpa using hw, ?_⟩
  simp only [Token.keywords, List.mem_cons, List.not_mem_nil, or_false, not_or]
  exact ⟨‹_›, ‹_›, ‹_›, ‹_›, ‹_›⟩

theorem writable_of_readNumber {ds : List Char} {t : Token} (h : readNumber ds = .ok t) :
    t.Writable := by
  unfold readNumber at h
  dsimp only at h
  split at h
  · rename_i hle
    rw [maxInt] at hle
    cases h
    show 0 ≤ (Int64.ofNat (Nat.ofDigitChars 10 ds 0)).toInt
    rw [Int64.toInt_ofNat_of_lt (by omega)]
    omega
  · cases h

/-- Only writable tokens are read. -/
theorem writable_of_lexeme {c : Char} {cs : List Char} {t : Token}
    (h : (lexeme (c :: cs)).2 = .ok t) : t.Writable := by
  dsimp only [lexeme] at h
  split at h
  · rename_i hsymbol
    cases h
    exact writable_of_ofSymbol? hsymbol
  · split at h
    · cases h
      trivial
    · split at h
      · exact writable_of_readNumber h
      · split at h
        · rename_i hstart
          cases h
          exact writable_ofWord (by simp [isWord, hstart])
        · cases h

end Lexer

namespace Cursor

theorem next_of_ok {c : Cursor} {t : Located Token} (h : c.next.1 = .ok t) :
    (Lexer.lexeme c.skipBlanks.rest).2 = .ok t.val := by
  unfold next at h
  dsimp only at h
  split at h
  · rename_i hlex
    cases h
    exact hlex
  · cases h

/-- Readings without a fault are writable tokens and the end of the text. -/
theorem writable_of_readings {c : Cursor} {toks : List (Located Token)}
    (h : c.readings = toks.map .ok) :
    ∃ ts, toks.map Located.val = ts ++ [.eof] ∧ ∀ t ∈ ts, t.Writable := by
  induction c using readings.induct generalizing toks with
  | case1 c hend =>
    rw [readings, if_pos hend] at h
    obtain ⟨t, ht, htoks⟩ : ∃ t, c.next.1 = .ok t ∧ toks = [t] := by
      cases toks with
      | nil => simp at h
      | cons t toks => exact ⟨t, by simpa using h⟩
    have hlex := next_of_ok ht
    rw [hend] at hlex
    exact ⟨[], by simp [htoks, ← Except.ok.inj hlex], by simp⟩
  | case2 c hrest ih =>
    rw [readings, if_neg hrest] at h
    obtain ⟨t, more, ht, hmore, htoks⟩ : ∃ t more, c.next.1 = .ok t ∧
        c.next.2.readings = more.map .ok ∧ toks = t :: more := by
      cases toks with
      | nil => simp at h
      | cons t more => exact ⟨t, more, by simpa using h⟩
    obtain ⟨ts, hvals, hts⟩ := ih hmore
    have hlex := next_of_ok ht
    refine ⟨t.val :: ts, by simp [htoks, hvals], ?_⟩
    cases hr : c.skipBlanks.rest with
    | nil => exact absurd hr hrest
    | cons d ds =>
      rw [hr] at hlex
      exact List.forall_mem_cons.2 ⟨Lexer.writable_of_lexeme hlex, hts⟩

end Cursor

/-- The tokens of a text are writable, but for the end that comes last. -/
theorem writable_of_tokenize {source : String} {toks : List (Located Token)}
    (h : tokenize source = .ok toks) :
    ∃ ts, toks.map Located.val = ts ++ [.eof] ∧ ∀ t ∈ ts, t.Writable :=
  Cursor.writable_of_readings (tokenize_eq_ok_iff.1 h)

end LetPoly
