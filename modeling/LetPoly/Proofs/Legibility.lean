import LetPoly.Proofs.Letters
import LetPoly.Proofs.Lexing

/-!
# Types can be told from their texts

A text with own names can be read in one way only, as long as the names are words other than `Int` and
`Bool` (`Scheme.eq_of_chars_eq`). For types this is by cancellation: when two texts begin with types
and what follows does not go on with them, the types are equal and so is what follows
(`Ty.determined`).

Letters are such names, and writing with letters is renaming to letters. So what is written with the
same letters differs by a one-to-one renaming of variables.
-/

namespace LetPoly

/-! ### Words -/

/-- A word ends where it cannot go on. -/
theorem Lexer.word_append_inj {w w' us vs : List Char} (hw : ∀ c ∈ w, continuesWord c = true)
    (hw' : ∀ c ∈ w', continuesWord c = true) (h : w ++ us = w' ++ vs) (hus : Stops us)
    (hvs : Stops vs) : w = w' ∧ us = vs := by
  have htake := congrArg (List.takeWhile continuesWord) h
  rw [takeWhile_append_stops (fun _ h => h) hw hus,
    takeWhile_append_stops (fun _ h => h) hw' hvs] at htake
  subst htake
  exact ⟨rfl, List.append_cancel_left h⟩

theorem Lexer.exists_cons_of_isWord {w : List Char} (h : isWord w = true) :
    ∃ c cs, w = c :: cs ∧ continuesWord c = true := by
  cases w with
  | nil => simp [isWord] at h
  | cons c cs => exact ⟨c, cs, rfl, continuesWord_of_isWord h c (by simp)⟩

/-- A name that can be told apart in a text: a word that is no type by itself. -/
def TyVar.Legible (a : TyVar) : Prop := Lexer.isWord a.toList = true ∧ a ≠ "Int" ∧ a ≠ "Bool"

/-! ### Types with their own names -/

namespace Ty

/-- All variables have names that can be told apart. -/
def Legible (t : Ty) : Prop := ∀ a ∈ t.freeVars, TyVar.Legible a

theorem legible_fn {t u : Ty} : (fn t u).Legible ↔ t.Legible ∧ u.Legible := by
  simp only [Legible, mem_freeVars_fn]
  grind

/-- The characters of a type that is written with its own names. -/
def chars (t : Ty) : List Char := (t.print id).toList

/-- The same for an argument, in brackets if it is a function. -/
def argChars (t : Ty) : List Char := if t.isFn then '(' :: (t.chars ++ [')']) else t.chars

theorem chars_fn (t u : Ty) :
    (fn t u).chars = t.argChars ++ ' ' :: '-' :: '>' :: ' ' :: u.chars := by
  unfold argChars
  by_cases h : t.isFn <;> simp [chars, print, h]

theorem argChars_fn {t : Ty} (h : t.isFn = true) : t.argChars = '(' :: (t.chars ++ [')']) := by
  simp [argChars, h]

theorem argChars_leaf {t : Ty} (h : t.isFn = false) : t.argChars = t.chars := by
  simp [argChars, h]

/-- A type that is no function is written as a word. -/
theorem isWord_leaf {t : Ty} (ht : t.Legible) (h : t.isFn = false) :
    Lexer.isWord t.chars = true := by
  cases t with
  | var a => exact (ht a (by simp)).1
  | fn t u => cases h
  | int | bool => decide

theorem leaf_inj {t t' : Ty} (ht : t.Legible) (ht' : t'.Legible) (h : t.isFn = false)
    (h' : t'.isFn = false) (heq : t.chars = t'.chars) : t = t' := by
  have heq : t.print id = t'.print id := String.toList_inj.1 heq
  cases t with
  | fn t u => cases h
  | var a =>
    obtain ⟨-, hint, hbool⟩ := ht a (by simp)
    cases t' with
    | var b => exact congrArg var heq
    | fn t u => cases h'
    | int => exact absurd heq hint
    | bool => exact absurd heq hbool
  | int =>
    cases t' with
    | var b => exact absurd heq.symm (ht' b (by simp)).2.1
    | fn t u => cases h'
    | int => rfl
    | bool => exact absurd heq (by decide)
  | bool =>
    cases t' with
    | var b => exact absurd heq.symm (ht' b (by simp)).2.2
    | fn t u => cases h'
    | int => exact absurd heq (by decide)
    | bool => rfl

/-- What follows does not go on with a type: neither with its last word, nor with an arrow. -/
def Ends (us : List Char) : Prop := Lexer.Stops us ∧ us.head? ≠ some ' '

theorem stops_arrow (us : List Char) : Lexer.Stops (' ' :: us) := .cons (by decide) us

theorem ends_bracket (us : List Char) : Ends (')' :: us) := ⟨.cons (by decide) us, by simp⟩

theorem ends_nil : Ends [] := ⟨.nil, by simp⟩

/-- A type that is no function, and an argument. -/
theorem leaf_append_inj {t t' : Ty} {us vs : List Char} (ht : t.Legible) (ht' : t'.Legible)
    (hleaf : t.isFn = false) (h : t.chars ++ us = t'.argChars ++ vs) (hus : Lexer.Stops us)
    (hvs : Lexer.Stops vs) : t = t' ∧ us = vs := by
  have hword := isWord_leaf ht hleaf
  cases hfn : t'.isFn with
  | true =>
    -- a bracket begins no word
    obtain ⟨c, cs, hc, hcont⟩ := Lexer.exists_cons_of_isWord hword
    rw [argChars_fn hfn, hc] at h
    have hbracket := (List.cons.inj h).1
    exact absurd hbracket (Lexer.ne_of_continuesWord hcont (by decide))
  | false =>
    rw [argChars_leaf hfn] at h
    have hword' := isWord_leaf ht' hfn
    obtain ⟨heq, hrest⟩ := Lexer.word_append_inj (Lexer.continuesWord_of_isWord hword)
      (Lexer.continuesWord_of_isWord hword') h hus hvs
    exact ⟨leaf_inj ht ht' hleaf hfn heq, hrest⟩

/-- A text that begins with the type determines it. -/
def Determined (t : Ty) : Prop :=
  ∀ (t' : Ty) (us vs : List Char), t'.Legible → t.chars ++ us = t'.chars ++ vs → Ends us → Ends vs →
    t = t' ∧ us = vs

theorem Determined.argument {t t' : Ty} {us vs : List Char} (hdet : t.Determined) (ht : t.Legible)
    (ht' : t'.Legible) (h : t.argChars ++ us = t'.argChars ++ vs) (hus : Lexer.Stops us)
    (hvs : Lexer.Stops vs) : t = t' ∧ us = vs := by
  cases hfn : t.isFn with
  | false =>
    rw [argChars_leaf hfn] at h
    exact leaf_append_inj ht ht' hfn h hus hvs
  | true =>
    cases hfn' : t'.isFn with
    | false =>
      rw [argChars_leaf hfn'] at h
      obtain ⟨heq, hrest⟩ := leaf_append_inj ht' ht hfn' h.symm hvs hus
      exact ⟨heq.symm, hrest.symm⟩
    | true =>
      rw [argChars_fn hfn, argChars_fn hfn'] at h
      simp only [List.cons_append, List.append_assoc, List.nil_append, List.cons.injEq,
        true_and] at h
      obtain ⟨heq, hrest⟩ := hdet t' _ _ ht' h (ends_bracket us) (ends_bracket vs)
      exact ⟨heq, (List.cons.inj hrest).2⟩

/-- Where a function goes on, a type that is none has ended. -/
theorem leaf_append_ne {t t' u' : Ty} {us vs : List Char} (ht : t.Legible) (ht' : t'.Legible)
    (hleaf : t.isFn = false) (hus : Ends us) : t.chars ++ us ≠ (fn t' u').chars ++ vs := by
  intro h
  rw [chars_fn, List.append_assoc] at h
  obtain ⟨-, hrest⟩ := leaf_append_inj ht ht' hleaf h hus.1 (stops_arrow _)
  exact hus.2 (by simp [hrest])

theorem determined_leaf {t : Ty} (ht : t.Legible) (hleaf : t.isFn = false) : t.Determined := by
  intro t' us vs ht' h hus hvs
  cases hfn : t'.isFn with
  | false => exact leaf_append_inj ht ht' hleaf (by rwa [argChars_leaf hfn]) hus.1 hvs.1
  | true =>
    cases t' with
    | fn t' u' => exact absurd h (leaf_append_ne ht (legible_fn.1 ht').1 hleaf hus)
    | var | int | bool => cases hfn

/-- **A type is determined by its text**, and so is where it ends. -/
theorem determined {t : Ty} (ht : t.Legible) : t.Determined := by
  induction t with
  | var a => exact determined_leaf ht rfl
  | int | bool => exact determined_leaf ht rfl
  | fn t u iht ihu =>
    obtain ⟨ht, hu⟩ := legible_fn.1 ht
    intro t' us vs ht' h hus hvs
    cases t' with
    | var | int | bool => exact absurd h.symm (leaf_append_ne ht' ht rfl hvs)
    | fn t' u' =>
      obtain ⟨ht', hu'⟩ := legible_fn.1 ht'
      simp only [chars_fn, List.append_assoc, List.cons_append] at h
      obtain ⟨rfl, hres⟩ := (iht ht).argument ht ht' h (stops_arrow _) (stops_arrow _)
      simp only [List.cons.injEq, true_and] at hres
      obtain ⟨rfl, hrest⟩ := ihu hu u' us vs hu' hres hus hvs
      exact ⟨rfl, hrest⟩

end Ty

/-! ### Schemes with their own names -/

/-- Quantified names, each with a blank in front, up to the dot. -/
theorem TyVar.quantifiers_inj {vars vars' : List TyVar} {us vs : List Char}
    (hvars : ∀ a ∈ vars, TyVar.Legible a) (hvars' : ∀ a ∈ vars', TyVar.Legible a)
    (h : vars.flatMap (fun a => ' ' :: a.toList) ++ '.' :: us =
      vars'.flatMap (fun a => ' ' :: a.toList) ++ '.' :: vs) : vars = vars' ∧ us = vs := by
  have hstops : ∀ (l : List TyVar) (ws : List Char),
      Lexer.Stops (l.flatMap (fun a => ' ' :: a.toList) ++ '.' :: ws) := by
    intro l ws
    cases l with
    | nil => exact .cons (by decide) _
    | cons a l => exact .cons (by decide) _
  induction vars generalizing vars' with
  | nil =>
    cases vars' with
    | nil => exact ⟨rfl, by simpa using h⟩
    | cons b vars' => simp at h
  | cons a vars ih =>
    cases vars' with
    | nil => simp at h
    | cons b vars' =>
      obtain ⟨ha, hmore⟩ := List.forall_mem_cons.1 hvars
      obtain ⟨hb, hmore'⟩ := List.forall_mem_cons.1 hvars'
      simp only [List.flatMap_cons, List.cons_append, List.append_assoc, List.cons.injEq,
        true_and] at h
      obtain ⟨hab, hrest⟩ := Lexer.word_append_inj (Lexer.continuesWord_of_isWord ha.1)
        (Lexer.continuesWord_of_isWord hb.1) h (hstops vars us) (hstops vars' vs)
      obtain rfl := String.toList_inj.1 hab
      obtain ⟨rfl, rfl⟩ := ih hmore hmore' hrest
      exact ⟨rfl, rfl⟩

/-- A type does not begin like a scheme that quantifies something. -/
theorem Ty.chars_ne_forall {t : Ty} (ht : t.Legible) {a : TyVar} (ha : TyVar.Legible a)
    (us : List Char) : t.chars ≠ "forall".toList ++ ' ' :: (a.toList ++ us) := by
  intro h
  -- `forall` could be a variable, but no argument or arrow goes on like that
  have hforall : (var "forall").Legible := by
    intro b hb
    obtain rfl : b = "forall" := by simpa using hb
    exact ⟨by decide, by decide, by decide⟩
  have h : (var "forall").chars ++ ' ' :: (a.toList ++ us) = t.chars := h.symm
  cases hfn : t.isFn with
  | false =>
    rw [← argChars_leaf hfn, ← List.append_nil t.argChars] at h
    obtain ⟨-, hrest⟩ := leaf_append_inj hforall ht rfl h (stops_arrow _) .nil
    cases hrest
  | true =>
    cases t with
    | var | int | bool => cases hfn
    | fn t u =>
      rw [chars_fn] at h
      obtain ⟨-, hrest⟩ := leaf_append_inj hforall (legible_fn.1 ht).1 rfl h (stops_arrow _)
        (stops_arrow _)
      obtain ⟨c, cs, hc, hcont⟩ := Lexer.exists_cons_of_isWord ha.1
      rw [hc] at hrest
      have harrow := (List.cons.inj (List.cons.inj hrest).2).1
      exact absurd harrow (Lexer.ne_of_continuesWord hcont (by decide))

namespace Scheme

/-- All variables have names that can be told apart, the quantified ones too. -/
def Legible (σ : Scheme) : Prop := ∀ a ∈ σ.names, TyVar.Legible a

theorem Legible.vars {σ : Scheme} (h : σ.Legible) : ∀ a ∈ σ.vars, TyVar.Legible a :=
  fun a ha => h a (List.mem_append_left _ ha)

theorem Legible.body {σ : Scheme} (h : σ.Legible) : σ.body.Legible :=
  fun a ha => h a (List.mem_append_right _ ha)

/-- The characters of a scheme that is written with its own names. -/
def chars (σ : Scheme) : List Char := (Naming.own.scheme σ).1.toList

theorem chars_eq (σ : Scheme) : σ.chars = (Naming.quantifiers σ.vars).toList ++ σ.body.chars := by
  have hown : Naming.own.name = id := rfl
  rw [chars, Naming.scheme_fst, Naming.scheme_snd, String.toList_append]
  simp only [Naming.meet, hown, List.map_id]
  rfl

theorem chars_nil (t : Ty) : (Scheme.mk [] t).chars = t.chars := rfl

theorem chars_cons (a : TyVar) (vars : List TyVar) (t : Ty) :
    (Scheme.mk (a :: vars) t).chars =
      "forall".toList ++ ((a :: vars).flatMap (fun a => ' ' :: a.toList) ++ '.' :: ' ' :: t.chars) := by
  rw [chars_eq]
  simp [Naming.quantifiers, String.toList_join, List.flatMap_map]

/-- **A scheme is determined by its text.** -/
theorem eq_of_chars_eq {σ σ' : Scheme} (hσ : σ.Legible) (hσ' : σ'.Legible)
    (h : σ.chars = σ'.chars) : σ = σ' := by
  have hvars := hσ.vars
  have hvars' := hσ'.vars
  have hbody := hσ.body
  have hbody' := hσ'.body
  obtain ⟨vars, t⟩ := σ
  obtain ⟨vars', t'⟩ := σ'
  have hty : t.chars = t'.chars → t = t' := fun h =>
    (Ty.determined hbody t' [] [] hbody' (by simpa using h) Ty.ends_nil Ty.ends_nil).1
  cases vars with
  | nil =>
    cases vars' with
    | nil => exact congrArg (Scheme.mk []) (hty h)
    | cons b vars' =>
      rw [chars_nil, chars_cons, List.flatMap_cons, List.append_assoc] at h
      exact absurd h (Ty.chars_ne_forall hbody (hvars' b (by simp)) _)
  | cons a vars =>
    cases vars' with
    | nil =>
      rw [chars_nil, chars_cons, List.flatMap_cons, List.append_assoc] at h
      exact absurd h.symm (Ty.chars_ne_forall hbody' (hvars a (by simp)) _)
    | cons b vars' =>
      rw [chars_cons, chars_cons, List.append_cancel_left_eq] at h
      obtain ⟨hquant, hrest⟩ := TyVar.quantifiers_inj hvars hvars' h
      exact congrArg₂ Scheme.mk hquant (hty (List.cons.inj hrest).2)

end Scheme

/-! ### Letters -/

theorem Naming.legible_letter (i : Nat) : TyVar.Legible (letter i) := by
  have hlower : ∀ k < 26, (Char.ofNat ('a'.toNat + k)).isLower = true := by decide
  have hfirst := hlower _ (Nat.mod_lt i (by decide))
  have hword : Lexer.isWord (letter i).toList = true := by
    rw [toList_letter, Lexer.isWord, Bool.and_eq_true_iff]
    refine ⟨Bool.or_eq_true_iff.2 (.inl (Bool.or_eq_true_iff.2 (.inr hfirst))), ?_⟩
    split
    · rfl
    · exact List.all_eq_true.2 fun c hc => Lexer.continuesWord_of_isDigit
        (Nat.isDigit_of_mem_toDigits (by decide) (by decide) hc)
  -- the words for types begin with capitals
  have hne : ∀ (c : Char) (cs : List Char), c.isLower = false → letter i ≠ String.ofList (c :: cs) := by
    intro c cs hc h
    have hchars := congrArg String.toList h
    rw [toList_letter, String.toList_ofList] at hchars
    rw [(List.cons.inj hchars).1, hc] at hfirst
    cases hfirst
  exact ⟨hword, hne 'I' ['n', 't'] (by decide), hne 'B' ['o', 'o', 'l'] (by decide)⟩

theorem Naming.legible_rename (met : List TyVar) (σ : Scheme) :
    (σ.rename (letters met).name).Legible := by
  intro b hb
  obtain ⟨a, -, rfl⟩ := Scheme.mem_names_rename.1 hb
  exact legible_letter _

/-! ### Lists that correspond -/

section Lists

variable {α β γ : Type} {R : α → β → Prop} {l : List α} {l' : List β}

theorem forall₂_of_map_eq {f : α → γ} {g : β → γ} (h : l.map f = l'.map g)
    (hR : ∀ a ∈ l, ∀ b ∈ l', f a = g b → R a b) : List.Forall₂ R l l' := by
  induction l generalizing l' with
  | nil =>
    obtain rfl := List.map_eq_nil_iff.1 h.symm
    exact .nil
  | cons a l ih =>
    obtain ⟨b, l', rfl, hab, hrest⟩ := List.map_eq_cons_iff.1 h.symm
    refine .cons (hR a (by simp) b (by simp) hab.symm) (ih hrest.symm fun c hc d hd => ?_)
    exact hR c (List.mem_cons_of_mem a hc) d (List.mem_cons_of_mem b hd)

theorem exists_of_forall₂ (h : List.Forall₂ R l l') {a : α} (ha : a ∈ l) : ∃ b, R a b := by
  induction h with
  | nil => cases ha
  | @cons c d l l' hcd _ ih =>
    rcases List.mem_cons.1 ha with rfl | ha
    · exact ⟨d, hcd⟩
    · exact ih ha

theorem map_eq_of_forall₂ (h : List.Forall₂ R l l') {f : α → β}
    (hf : ∀ a ∈ l, ∀ b, R a b → f a = b) : l.map f = l' := by
  induction h with
  | nil => rfl
  | @cons c d l l' hcd _ ih =>
    rw [List.map_cons, hf c (by simp) d hcd, ih fun a ha => hf a (List.mem_cons_of_mem c ha)]

end Lists

/-! ### Schemes that differ in names -/

/-- Schemes of one form with paired variables, those that are quantified paired in their order. -/
structure Scheme.Paired (B : Matching) (σ σ' : Scheme) : Prop where
  vars : List.Forall₂ B.rel σ.vars σ'.vars
  body : Ty.Alike B σ.body σ'.body

theorem Ty.Alike.of_rename_eq {B : Matching} {f g : TyVar → TyVar} {t t' : Ty}
    (h : t.rename f = t'.rename g)
    (hB : ∀ a ∈ t.freeVars, ∀ b ∈ t'.freeVars, f a = g b → B.rel a b) : Ty.Alike B t t' := by
  induction t generalizing t' with
  | var a =>
    cases t' with
    | var b => exact .var (hB a (by simp) b (by simp) (Ty.var.inj h))
    | fn | int | bool => cases h
  | fn t u iht ihu =>
    cases t' with
    | fn t' u' =>
      obtain ⟨ht, hu⟩ := Ty.fn.inj h
      refine .fn (iht ht fun a ha b hb => ?_) (ihu hu fun a ha b hb => ?_)
      · exact hB a (mem_freeVars_fn.2 (.inl ha)) b (mem_freeVars_fn.2 (.inl hb))
      · exact hB a (mem_freeVars_fn.2 (.inr ha)) b (mem_freeVars_fn.2 (.inr hb))
    | var | int | bool => cases h
  | int =>
    cases t' with
    | int => exact .int
    | var | fn | bool => cases h
  | bool =>
    cases t' with
    | bool => exact .bool
    | var | fn | int => cases h

namespace Scheme.Paired

variable {B : Matching} {σ σ' : Scheme}

theorem of_rename_eq {f g : TyVar → TyVar} (h : σ.rename f = σ'.rename g)
    (hB : ∀ a ∈ σ.names, ∀ b ∈ σ'.names, f a = g b → B.rel a b) : Paired B σ σ' := by
  obtain ⟨hvars, hbody⟩ := Scheme.mk.inj h
  refine ⟨forall₂_of_map_eq hvars fun a ha b hb => ?_, .of_rename_eq hbody fun a ha b hb => ?_⟩
  · exact hB a (List.mem_append_left _ ha) b (List.mem_append_left _ hb)
  · exact hB a (List.mem_append_right _ ha) b (List.mem_append_right _ hb)

theorem rename {ρ : TyVar → TyVar} {vars : Set TyVar} (h : vars.InjOn ρ)
    (hσ : ∀ a ∈ σ.names, a ∈ vars) : Paired (.graph h) σ (σ.rename ρ) := by
  refine ⟨?_, .rename h fun a ha => hσ a (List.mem_append_right _ ha)⟩
  rw [Scheme.rename, List.forall₂_map_right_iff, List.forall₂_same]
  exact fun a ha => ⟨hσ a (List.mem_append_left _ ha), rfl⟩

theorem exists_rel (h : Paired B σ σ') {a : TyVar} (ha : a ∈ σ.names) : ∃ b, B.rel a b := by
  rcases List.mem_append.1 ha with ha | ha
  · exact exists_of_forall₂ h.vars ha
  · obtain ⟨b, -, hab⟩ := h.body.exists_rel ha
    exact ⟨b, hab⟩

theorem rename_eq (h : Paired B σ σ') {ρ : TyVar → TyVar}
    (hρ : ∀ a ∈ σ.names, ∀ b, B.rel a b → ρ a = b) : σ.rename ρ = σ' := by
  have hvars := map_eq_of_forall₂ h.vars fun a ha => hρ a (List.mem_append_left _ ha)
  have hbody := h.body.rename_eq fun a ha => hρ a (List.mem_append_right _ ha)
  rw [Scheme.rename, hvars, hbody]

end Scheme.Paired

/-- Schemes in a row that differ in paired names differ by one permutation of all variables. -/
theorem Matching.exists_perm_schemes {B : Matching} {σs σs' : List Scheme}
    (h : List.Forall₂ (Scheme.Paired B) σs σs') :
    ∃ ρ : Equiv.Perm TyVar, σs.map (Scheme.rename ρ) = σs' := by
  have hrel : ∀ a ∈ σs.flatMap Scheme.names, ∃ b, B.rel a b := by
    intro a ha
    obtain ⟨σ, hσ, ha⟩ := List.mem_flatMap.1 ha
    obtain ⟨σ', hpair⟩ := exists_of_forall₂ h hσ
    exact hpair.exists_rel ha
  obtain ⟨ρ, hρ⟩ := Matching.exists_perm hrel
  refine ⟨ρ, map_eq_of_forall₂ h fun σ hσ σ' hpair => hpair.rename_eq fun a ha => ?_⟩
  exact hρ a (List.mem_flatMap.2 ⟨σ, hσ, ha⟩)

namespace Naming

/-! ### Equal texts -/

/-- Schemes in a row that differ in paired names are written alike. -/
theorem Alike.schemes {B : Matching} {σs σs' : List Scheme}
    (h : List.Forall₂ (Scheme.Paired B) σs σs') {n n' : Naming} (hn : Alike B n n') :
    n.schemes σs = n'.schemes σs' := by
  induction h generalizing n n' with
  | nil => rfl
  | @cons σ σ' σs σs' hpair _ ih =>
    obtain ⟨htext, hnext⟩ := hn.scheme hpair.vars hpair.body
    show (n.scheme σ).1 :: (n.scheme σ).2.schemes σs = (n'.scheme σ').1 :: (n'.scheme σ').2.schemes σs'
    rw [htext, ih hnext]

theorem eq_of_own_schemes_eq {σs σs' : List Scheme} (hσs : ∀ σ ∈ σs, σ.Legible)
    (hσs' : ∀ σ ∈ σs', σ.Legible) (h : own.schemes σs = own.schemes σs') : σs = σs' := by
  rw [own_schemes, own_schemes] at h
  have hall : List.Forall₂ (· = ·) σs σs' := forall₂_of_map_eq h fun σ hσ σ' hσ' htext =>
    Scheme.eq_of_chars_eq (hσs σ hσ) (hσs' σ' hσ') (congrArg String.toList htext)
  rwa [List.forall₂_eq_eq_eq] at hall

/-- Variables that have the same letter. -/
def sharing (met met' : List TyVar) : Matching where
  rel a b := a ∈ met ∧ b ∈ met' ∧ (letters met).name a = (letters met').name b
  left_unique h h' := name_inj h.1 (h.2.2.trans h'.2.2.symm)
  right_unique h h' := name_inj h.2.1 (h.2.2.symm.trans h'.2.2)

/-- What is written alike differs in names that are paired by their letters. -/
theorem exists_paired {σs σs' : List Scheme} (h : new.schemes σs = new.schemes σs') :
    ∃ B : Matching, List.Forall₂ (Scheme.Paired B) σs σs' := by
  obtain ⟨met, hmet, htexts⟩ := exists_schemes_eq [] σs
  obtain ⟨met', hmet', htexts'⟩ := exists_schemes_eq [] σs'
  rw [List.nil_append] at hmet hmet' htexts htexts'
  have hletters : σs.map (Scheme.rename (letters met).name) =
      σs'.map (Scheme.rename (letters met').name) := by
    refine eq_of_own_schemes_eq ?_ ?_ (htexts.symm.trans (h.trans htexts'))
    · exact List.forall_mem_map.2 fun σ _ => legible_rename met σ
    · exact List.forall_mem_map.2 fun σ _ => legible_rename met' σ
  refine ⟨sharing met met', forall₂_of_map_eq hletters fun σ hσ σ' hσ' heq => ?_⟩
  exact .of_rename_eq heq fun a ha b hb hab => ⟨hmet σ hσ a ha, hmet' σ' hσ' b hb, hab⟩

/-- **Texts tell types up to names.** Two lists of schemes, each written through one new naming, have
the same texts exactly if a one-to-one renaming of type variables turns the one into the other, scheme
by scheme, with the quantified variables in their order. A type is written as the scheme that quantifies
nothing. -/
theorem texts_eq_iff_renamed (σs σs' : List Scheme) :
    (new.schemes σs = new.schemes σs' ↔
      σs.length = σs'.length ∧ ∃ ρ : TyVar → TyVar, ρ.Injective ∧ σs.map (Scheme.rename ρ) = σs') ∧
    ∀ (n : Naming) (t : Ty), n.scheme (.mono t) = n.ty t := by
  refine ⟨⟨fun h => ?_, ?_⟩, fun n t => rfl⟩
  · obtain ⟨B, hpairs⟩ := exists_paired h
    obtain ⟨ρ, hρ⟩ := Matching.exists_perm_schemes hpairs
    exact ⟨hpairs.length_eq, ρ, ρ.injective, hρ⟩
  · rintro ⟨-, ρ, hinj, rfl⟩
    have hinj : Set.univ.InjOn ρ := hinj.injOn
    have hpairs : List.Forall₂ (Scheme.Paired (.graph hinj)) σs (σs.map (Scheme.rename ρ)) := by
      rw [List.forall₂_map_right_iff, List.forall₂_same]
      exact fun σ _ => .rename hinj fun a _ => Set.mem_univ a
    exact Alike.schemes hpairs .new

/-- The body is met before what is quantified, and letters are shared by all that is written. -/
example : new.schemes [⟨["v", "w", "x"], .fn (.var "w") (.var "v")⟩, .mono (.fn (.var "x") (.var "y"))] =
    ["forall b a c. a -> b", "c -> d"] := by
  decide +kernel

end Naming

end LetPoly
