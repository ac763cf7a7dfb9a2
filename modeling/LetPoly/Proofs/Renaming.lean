import LetPoly.Proofs.Matching
import Mathlib.Data.List.Forall2
import Mathlib.SetTheory.Cardinal.Arithmetic

/-!
# What is alike is written alike

Letters are given out in the order in which variables are met, so types and schemes that are alike
get the same text (`Naming.Alike.scheme`). And what is alike under a matching can be turned into one
another by a permutation of all type variables (`TypeError.Alike.exists_perm`), because a matching of
finitely many variables can be completed.
-/

namespace LetPoly

/-! ### Lists of variables -/

namespace Matching

variable {B : Matching} {l l' : List TyVar} {a b : TyVar}

theorem mem_iff (h : List.Forall₂ B.rel l l') (hab : B.rel a b) : a ∈ l ↔ b ∈ l' := by
  induction h with
  | nil => simp
  | cons hcd _ ih =>
    refine (List.mem_cons.trans (or_congr ⟨?_, ?_⟩ ih)).trans List.mem_cons.symm
    · rintro rfl
      exact B.right_unique hab hcd
    · rintro rfl
      exact B.left_unique hab hcd

theorem idxOf_eq (h : List.Forall₂ B.rel l l') (hab : B.rel a b) : l.idxOf a = l'.idxOf b := by
  induction h with
  | nil => rfl
  | @cons c d l l' hcd _ ih =>
    have hiff : c = a ↔ d = b := by
      constructor
      · rintro rfl
        exact B.right_unique hcd hab
      · rintro rfl
        exact B.left_unique hcd hab
    by_cases hca : c = a
    · rw [hca, hiff.1 hca, List.idxOf_cons_self, List.idxOf_cons_self]
    · rw [List.idxOf_cons_ne _ hca, List.idxOf_cons_ne _ (mt hiff.2 hca), ih]

theorem map_eq (h : List.Forall₂ B.rel l l') {f g : TyVar → String}
    (hfg : ∀ a b, B.rel a b → f a = g b) : l.map f = l'.map g := by
  induction h with
  | nil => rfl
  | cons hab _ ih => rw [List.map_cons, List.map_cons, hfg _ _ hab, ih]

end Matching

theorem Ty.Alike.forall₂_freeVars {B : Matching} {t t' : Ty} (h : Ty.Alike B t t') :
    List.Forall₂ B.rel t.freeVars t'.freeVars := by
  induction h with
  | var hab => exact .cons hab .nil
  | @fn t t' u u' ht _ iht ihu =>
    rw [freeVars_fn, freeVars_fn]
    refine List.rel_append iht (List.rel_filter ?_ ihu)
    intro a b hab
    simp [ht.mem_freeVars hab]
  | int | bool => exact .nil

/-! ### Text -/

theorem Ty.Alike.print_eq {B : Matching} {t t' : Ty} (h : Ty.Alike B t t')
    {name name' : TyVar → String} (hname : ∀ a b, B.rel a b → name a = name' b) :
    t.print name = t'.print name' := by
  induction h with
  | var hab => exact hname _ _ hab
  | @fn t t' u u' ht _ iht ihu =>
    have hfn : t.isFn = t'.isFn := by cases ht <;> rfl
    simp only [print, hfn, iht, ihu]
  | int | bool => rfl

namespace Naming

/-- Letters that are given to paired variables. -/
inductive Alike (B : Matching) : Naming → Naming → Prop where
  | letters {met met' : List TyVar} :
    List.Forall₂ B.rel met met' → Alike B (.letters met) (.letters met')

namespace Alike

variable {B : Matching} {n n' : Naming}

theorem new : Alike B Naming.new Naming.new := .letters .nil

theorem name_eq (h : Alike B n n') {a b : TyVar} (hab : B.rel a b) : n.name a = n'.name b := by
  cases h with
  | letters hmet => exact congrArg letter (Matching.idxOf_eq hmet hab)

theorem meet (h : Alike B n n') {vars vars' : List TyVar} (hvars : List.Forall₂ B.rel vars vars') :
    Alike B (n.meet vars) (n'.meet vars') := by
  cases h with
  | @letters met met' hmet =>
    refine .letters ?_
    induction hvars generalizing met met' with
    | nil => exact hmet
    | cons hab _ ih =>
      refine ih ?_
      simp only [Matching.mem_iff hmet hab]
      split
      · exact hmet
      · exact List.rel_append hmet (.cons hab .nil)

theorem ty (h : Alike B n n') {t t' : Ty} (ht : Ty.Alike B t t') :
    (n.ty t).1 = (n'.ty t').1 ∧ Alike B (n.ty t).2 (n'.ty t').2 := by
  have hmeet := h.meet ht.forall₂_freeVars
  exact ⟨ht.print_eq fun a b hab => hmeet.name_eq hab, hmeet⟩

/-- Schemes that quantify paired variables in the same order are written alike. -/
theorem scheme (h : Alike B n n') {σ σ' : Scheme} (hvars : List.Forall₂ B.rel σ.vars σ'.vars)
    (hbody : Ty.Alike B σ.body σ'.body) :
    (n.scheme σ).1 = (n'.scheme σ').1 ∧ Alike B (n.scheme σ).2 (n'.scheme σ').2 := by
  obtain ⟨htext, hty⟩ := h.ty hbody
  have hmono : σ.isMono = σ'.isMono := by
    rw [Bool.eq_iff_iff, Scheme.isMono, Scheme.isMono, List.isEmpty_iff_length_eq_zero,
      List.isEmpty_iff_length_eq_zero, hvars.length_eq]
  have hmeet := hty.meet hvars
  have hnames : σ.vars.map (" " ++ ((n.ty σ.body).2.meet σ.vars).name ·) =
      σ'.vars.map (" " ++ ((n'.ty σ'.body).2.meet σ'.vars).name ·) :=
    Matching.map_eq hvars fun a b hab => by rw [hmeet.name_eq hab]
  unfold Naming.scheme
  rw [hmono]
  split
  · exact ⟨htext, hty⟩
  · exact ⟨by simp only [hnames, htext], hmeet⟩

end Alike

end Naming

/-! ### Permutations -/

/-- Renames the variables of a type. -/
def Ty.rename (ρ : TyVar → TyVar) (t : Ty) : Ty := t.assign fun a => .var (ρ a)

/-- Renames the variables of a scheme, the quantified ones too. -/
def Scheme.rename (ρ : TyVar → TyVar) (σ : Scheme) : Scheme := ⟨σ.vars.map ρ, σ.body.rename ρ⟩

/-- Renames the type variables in an error. -/
def TypeError.rename (ρ : TyVar → TyVar) : TypeError → TypeError
  | .unboundVariable x => .unboundVariable x
  | .infinite a t => .infinite (ρ a) (t.rename ρ)
  | .mismatch t u => .mismatch (t.rename ρ) (u.rename ρ)

theorem Ty.Alike.rename_eq {B : Matching} {t t' : Ty} (h : Ty.Alike B t t') {ρ : TyVar → TyVar}
    (hρ : ∀ a ∈ t.freeVars, ∀ b, B.rel a b → ρ a = b) : t.rename ρ = t' := by
  induction h with
  | @var a b hab => exact congrArg Ty.var (hρ a (by simp) b hab)
  | fn _ _ iht ihu =>
    have ht := iht fun a ha => hρ a (mem_freeVars_fn.2 (.inl ha))
    have hu := ihu fun a ha => hρ a (mem_freeVars_fn.2 (.inr ha))
    exact congrArg₂ Ty.fn ht hu
  | int | bool => rfl

/-- A matching can be completed to a permutation, as far as finitely many variables are concerned. -/
theorem Matching.exists_perm {B : Matching} {vars : List TyVar}
    (h : ∀ a ∈ vars, ∃ b, B.rel a b) :
    ∃ ρ : Equiv.Perm TyVar, ∀ a ∈ vars, ∀ b, B.rel a b → ρ a = b := by
  have hrel : ∀ a : {a // a ∈ vars}, ∃ b, B.rel a b := fun a => h a a.2
  choose f hf using hrel
  have hinj : f.Injective := fun a a' heq => Subtype.ext (B.left_unique (hf a) (heq ▸ hf a'))
  have : Infinite TyVar := .of_injective TyVar.fresh fun _ _ => TyVar.fresh_inj.1
  have hfin : {a | a ∈ vars}.Finite := vars.finite_toSet
  obtain ⟨ρ, hρ⟩ := Cardinal.extend_function_of_lt (s := {a | a ∈ vars}) ⟨f, hinj⟩
    (hfin.lt_aleph0.trans_le (Cardinal.aleph0_le_mk _)) ⟨Equiv.refl _⟩
  exact ⟨ρ, fun a ha b hab => (hρ ⟨a, ha⟩).trans (B.right_unique (hf ⟨a, ha⟩) hab)⟩

/-- Some variables with what they are renamed to. -/
def Matching.graph {ρ : TyVar → TyVar} {vars : Set TyVar} (h : vars.InjOn ρ) : Matching where
  rel a b := a ∈ vars ∧ ρ a = b
  left_unique ha ha' := h ha.1 ha'.1 (ha.2.trans ha'.2.symm)
  right_unique ha ha' := ha.2.symm.trans ha'.2

theorem Ty.Alike.rename {ρ : TyVar → TyVar} {vars : Set TyVar} (h : vars.InjOn ρ) {t : Ty}
    (ht : ∀ a ∈ t.freeVars, a ∈ vars) : Ty.Alike (.graph h) t (t.rename ρ) := by
  have halike : Ty.Alike (.graph h) (t.assign .var) (t.assign fun a => .var (ρ a)) := by
    refine (Ty.Alike.refl t).assign fun a ha b _ hab => .var ⟨ht a ha, ?_⟩
    rw [show a = b from hab]
  rwa [Ty.assign_var] at halike

theorem Ty.Alike.exists_perm {B : Matching} {t t' : Ty} (h : Ty.Alike B t t') :
    ∃ ρ : Equiv.Perm TyVar, t.rename ρ = t' := by
  have hrel : ∀ a ∈ t.freeVars, ∃ b, B.rel a b := fun a ha =>
    let ⟨b, _, hab⟩ := h.exists_rel ha
    ⟨b, hab⟩
  obtain ⟨ρ, hρ⟩ := Matching.exists_perm hrel
  exact ⟨ρ, h.rename_eq hρ⟩

/-- Errors that are alike differ by a permutation of type variables. -/
theorem TypeError.Alike.exists_perm {B : Matching} {e e' : TypeError} (h : e.Alike B e') :
    ∃ ρ : Equiv.Perm TyVar, e.rename ρ = e' := by
  cases h with
  | unboundVariable x => exact ⟨1, rfl⟩
  | infinite hab ht =>
    obtain ⟨ρ, hρ⟩ := (Ty.Alike.fn (.var hab) ht).exists_perm
    obtain ⟨ha, ht⟩ := Ty.fn.inj hρ
    exact ⟨ρ, congrArg₂ TypeError.infinite (Ty.var.inj ha) ht⟩
  | mismatch ht hu =>
    obtain ⟨ρ, hρ⟩ := (Ty.Alike.fn ht hu).exists_perm
    obtain ⟨ht, hu⟩ := Ty.fn.inj hρ
    exact ⟨ρ, congrArg₂ TypeError.mismatch ht hu⟩

end LetPoly
