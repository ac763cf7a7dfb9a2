import LetPoly.Infer
import LetPoly.Proofs.Instance
import LetPoly.Proofs.Unifier

/-!
# Equal up to the names of variables

A `Matching` pairs type variables one to one. Types, schemes, substitutions and type errors are alike
under a matching when they have the same form and their variables are paired. A matching need not
pair all variables, so it can grow while two computations draw their own fresh ones.

In a scheme, quantified variables may be paired in any way. Free ones have to be paired by the
matching at hand, and this is also all that is asked of the order, the number and the names of what
is quantified (`Scheme.Alike`).
-/

namespace LetPoly

/-- Type variables paired one to one. -/
structure Matching where
  rel : TyVar → TyVar → Prop
  left_unique : ∀ {a a' b}, rel a b → rel a' b → a = a'
  right_unique : ∀ {a b b'}, rel a b → rel a b' → b = b'

namespace Matching

def empty : Matching where
  rel _ _ := False
  left_unique h := h.elim
  right_unique h := h.elim

def pair (a b : TyVar) : Matching where
  rel x y := x = a ∧ y = b
  left_unique h h' := h.1.trans h'.1.symm
  right_unique h h' := h.2.trans h'.2.symm

def refl : Matching where
  rel a b := a = b
  left_unique h h' := h.trans h'.symm
  right_unique h h' := h.symm.trans h'

def symm (B : Matching) : Matching where
  rel a b := B.rel b a
  left_unique := B.right_unique
  right_unique := B.left_unique

/-- Two matchings that have no variable in common on either side. -/
def union (B C : Matching)
    (h : ∀ {a b a' b'}, B.rel a b → C.rel a' b' → a ≠ a' ∧ b ≠ b') : Matching where
  rel a b := B.rel a b ∨ C.rel a b
  left_unique := by
    rintro a a' b (hB | hC) (hB' | hC')
    · exact B.left_unique hB hB'
    · exact absurd rfl (h hB hC').2
    · exact absurd rfl (h hB' hC).2
    · exact C.left_unique hC hC'
  right_unique := by
    rintro a b b' (hB | hC) (hB' | hC')
    · exact B.right_unique hB hB'
    · exact absurd rfl (h hB hC').1
    · exact absurd rfl (h hB' hC).1
    · exact C.right_unique hC hC'

end Matching

/-! ### Types -/

/-- Types of one form, with paired variables. -/
inductive Ty.Alike (B : Matching) : Ty → Ty → Prop where
  | var {a b : TyVar} : B.rel a b → Alike B (.var a) (.var b)
  | fn {t t' u u' : Ty} : Alike B t t' → Alike B u u' → Alike B (.fn t u) (.fn t' u')
  | int : Alike B .int .int
  | bool : Alike B .bool .bool

namespace Ty.Alike

variable {B C : Matching} {t t' u u' : Ty} {a b : TyVar}

theorem refl (t : Ty) : Alike .refl t t := by
  induction t with
  | var a => exact .var rfl
  | fn t u iht ihu => exact .fn iht ihu
  | int => exact .int
  | bool => exact .bool

theorem symm (h : Alike B t t') : Alike B.symm t' t := by
  induction h with
  | var hab => exact .var hab
  | fn _ _ iht ihu => exact .fn iht ihu
  | int => exact .int
  | bool => exact .bool

/-- Replacing paired variables by types that are alike. -/
theorem assign {θ θ' : Assignment} (h : Alike C t t')
    (hθ : ∀ a ∈ t.freeVars, ∀ b ∈ t'.freeVars, C.rel a b → Alike B (θ a) (θ' b)) :
    Alike B (t.assign θ) (t'.assign θ') := by
  induction h with
  | @var a b hab => exact hθ a (by simp) b (by simp) hab
  | fn _ _ iht ihu =>
    refine .fn (iht fun a ha b hb => ?_) (ihu fun a ha b hb => ?_)
    · exact hθ a (mem_freeVars_fn.2 (.inl ha)) b (mem_freeVars_fn.2 (.inl hb))
    · exact hθ a (mem_freeVars_fn.2 (.inr ha)) b (mem_freeVars_fn.2 (.inr hb))
  | int => exact .int
  | bool => exact .bool

/-- Only the pairs of variables that appear matter. -/
theorem mono (h : Alike C t t')
    (hB : ∀ a ∈ t.freeVars, ∀ b ∈ t'.freeVars, C.rel a b → B.rel a b) : Alike B t t' := by
  have := h.assign (fun a ha b hb hab => .var (hB a ha b hb hab))
  rwa [assign_var, assign_var] at this

theorem exists_rel (h : Alike B t t') (ha : a ∈ t.freeVars) : ∃ b ∈ t'.freeVars, B.rel a b := by
  induction h with
  | @var a' b hab =>
    obtain rfl : a = a' := by simpa using ha
    exact ⟨b, by simp, hab⟩
  | fn _ _ iht ihu =>
    rcases mem_freeVars_fn.1 ha with ha | ha
    · obtain ⟨b, hb, hab⟩ := iht ha
      exact ⟨b, mem_freeVars_fn.2 (.inl hb), hab⟩
    · obtain ⟨b, hb, hab⟩ := ihu ha
      exact ⟨b, mem_freeVars_fn.2 (.inr hb), hab⟩
  | int | bool => simp at ha

theorem mem_freeVars (h : Alike B t t') (hab : B.rel a b) :
    a ∈ t.freeVars ↔ b ∈ t'.freeVars := by
  constructor
  · intro ha
    obtain ⟨b', hb', hab'⟩ := h.exists_rel ha
    rwa [B.right_unique hab hab']
  · intro hb
    obtain ⟨a', ha', hab'⟩ := h.symm.exists_rel hb
    rwa [B.left_unique hab hab']

theorem var_iff (h : Alike B t t') (hab : B.rel a b) : t = .var a ↔ t' = .var b := by
  constructor
  · rintro rfl
    cases h with
    | var hab' => rw [B.right_unique hab hab']
  · rintro rfl
    cases h with
    | var hab' => rw [B.left_unique hab hab']

theorem isVar_eq (h : Alike B t t') : t.isVar = t'.isVar := by
  cases h <;> rfl

theorem clash_eq (ht : Alike B t t') (hu : Alike B u u') : t.clash u = t'.clash u' := by
  cases ht <;> cases hu <;> rfl

end Ty.Alike

/-! ### Substitutions -/

/-- Substitutions that replace paired variables by types that are alike. -/
def Subst.Alike (B : Matching) (s s' : Subst) : Prop :=
  ∀ a b, B.rel a b → Ty.Alike B (s.assignment a) (s'.assignment b)

namespace Subst.Alike

variable {B : Matching} {s s' r r' : Subst}

theorem empty : Alike B ∅ ∅ := by
  intro a b hab
  rw [assignment_empty]
  exact .var hab

theorem ty (h : Alike B s s') {t t' : Ty} (ht : Ty.Alike B t t') :
    Ty.Alike B (t.subst s) (t'.subst s') := by
  rw [Ty.subst_eq_assign, Ty.subst_eq_assign]
  exact ht.assign fun a _ b _ hab => h a b hab

theorem compose (hs : Alike B s s') (hr : Alike B r r') :
    Alike B (s.compose r) (s'.compose r') := by
  intro a b hab
  have := hs.ty (hr a b hab)
  rw [Ty.subst_eq_assign, Ty.subst_eq_assign] at this
  rwa [assignment_compose, assignment_compose]

theorem single {a b : TyVar} {t t' : Ty} (hab : B.rel a b) (ht : Ty.Alike B t t') :
    Alike B (single a t) (single b t') := by
  intro x y hxy
  simp only [assignment_eq, getElem?_single]
  by_cases hx : a = x
  · subst hx
    rw [if_pos rfl, if_pos (B.right_unique hab hxy)]
    exact ht
  · have hy : b ≠ y := by
      rintro rfl
      exact hx (B.left_unique hab hxy)
    rw [if_neg hx, if_neg hy]
    exact .var hxy

end Subst.Alike

/-! ### Unification -/

/-- Type errors of one kind, with paired variables. -/
inductive TypeError.Alike (B : Matching) : TypeError → TypeError → Prop where
  | unboundVariable (x : String) : Alike B (.unboundVariable x) (.unboundVariable x)
  | infinite {a b : TyVar} {t t' : Ty} :
    B.rel a b → Ty.Alike B t t' → Alike B (.infinite a t) (.infinite b t')
  | mismatch {t t' u u' : Ty} :
    Ty.Alike B t t' → Ty.Alike B u u' → Alike B (.mismatch t u) (.mismatch t' u')

/-- Two results are values that a relation holds of, or type errors that are alike. -/
inductive Matching.Agree {α β : Type} (B : Matching) (R : α → β → Prop) :
    Except TypeError α → Except TypeError β → Prop where
  | ok {a : α} {b : β} : R a b → Agree B R (.ok a) (.ok b)
  | error {e e' : TypeError} : e.Alike B e' → Agree B R (.error e) (.error e')

theorem Matching.Agree.bind {α β γ δ : Type} {B : Matching} {R : α → β → Prop} {Q : γ → δ → Prop}
    {x : Except TypeError α} {y : Except TypeError β} {f : α → Except TypeError γ}
    {g : β → Except TypeError δ} (h : B.Agree R x y)
    (hf : ∀ a b, x = .ok a → y = .ok b → R a b → B.Agree Q (f a) (g b)) :
    B.Agree Q (x.bind f) (y.bind g) := by
  cases h with
  | ok hab => exact hf _ _ rfl rfl hab
  | error he => exact .error he

theorem Matching.Agree.map {α β γ δ : Type} {B : Matching} {R : α → β → Prop} {Q : γ → δ → Prop}
    {x : Except TypeError α} {y : Except TypeError β} {f : α → γ} {g : β → δ} (h : B.Agree R x y)
    (hf : ∀ a b, R a b → Q (f a) (g b)) : B.Agree Q (x.map f) (y.map g) := by
  cases h with
  | ok hab => exact .ok (hf _ _ hab)
  | error he => exact .error he

theorem Unify.bindVar_alike {B : Matching} {a b : TyVar} {t t' : Ty} (hab : B.rel a b)
    (ht : Ty.Alike B t t') :
    B.Agree (Subst.Alike B) (bindVar a t).result (bindVar b t').result := by
  have hocc : t.occurs a = t'.occurs b := by
    rw [Bool.eq_iff_iff, Ty.occurs_eq_true_iff, Ty.occurs_eq_true_iff, ht.mem_freeVars hab]
  simp only [bindVar, ht.var_iff hab, hocc]
  split
  · exact .ok .empty
  · split
    · exact .error (.infinite hab ht)
    · exact .ok (.single hab ht)

/-- Unification does not look at the names of variables. -/
theorem unify_alike {B : Matching} {t t' u u' : Ty} (ht : Ty.Alike B t t')
    (hu : Ty.Alike B u u') :
    B.Agree (Subst.Alike B) (unify t u).result (unify t' u').result := by
  induction t, u using Unify.induction generalizing t' u' with
  | int =>
    cases ht
    cases hu
    rw [unify_int_int]
    exact .ok .empty
  | bool =>
    cases ht
    cases hu
    rw [unify_bool_bool]
    exact .ok .empty
  | varLeft a u =>
    cases ht with
    | var hab =>
      rw [unify_var_left, unify_var_left]
      exact Unify.bindVar_alike hab hu
  | varRight t a hvar =>
    cases hu with
    | var hab =>
      rw [unify_var_right a hvar, unify_var_right _ (ht.isVar_eq ▸ hvar)]
      exact Unify.bindVar_alike hab ht
  | fn l r l' r' harg hres =>
    cases ht with
    | fn htl htr =>
      cases hu with
      | fn hul hur =>
        simp only [unify_fn_fn, Unification.result_andThen]
        refine (harg htl hul).bind fun s s' hs _ hss' => ?_
        refine (hres s hs (hss'.ty htr) (hss'.ty hur)).map fun r r' hrr' => ?_
        exact hrr'.compose hss'
  | clash t u h =>
    rw [unify_of_clash h, unify_of_clash (ht.clash_eq hu ▸ h)]
    exact .error (.mismatch ht hu)

/-! ### Schemes -/

/-- Schemes whose bodies are alike, where quantified variables are paired with quantified ones and
free variables as the matching does. -/
def Scheme.Alike (B : Matching) (σ σ' : Scheme) : Prop :=
  ∃ C : Matching, Ty.Alike C σ.body σ'.body ∧
    ∀ a b, C.rel a b → (a ∈ σ.vars ↔ b ∈ σ'.vars) ∧ (a ∉ σ.vars → B.rel a b)

namespace Scheme.Alike

variable {B B' : Matching} {σ σ' : Scheme}

theorem mono (h : Alike B σ σ') (hB : ∀ a b, B.rel a b → B'.rel a b) : Alike B' σ σ' := by
  obtain ⟨C, hbody, hC⟩ := h
  exact ⟨C, hbody, fun a b hab => ⟨(hC a b hab).1, fun ha => hB a b ((hC a b hab).2 ha)⟩⟩

theorem of_ty {t t' : Ty} (h : Ty.Alike B t t') : Alike B (.mono t) (.mono t') :=
  ⟨B, h, fun _ _ hab => ⟨by simp [Scheme.mono], fun _ => hab⟩⟩

theorem mem_freeVars (h : Alike B σ σ') {a b : TyVar} (hab : B.rel a b) :
    a ∈ σ.freeVars ↔ b ∈ σ'.freeVars := by
  obtain ⟨C, hbody, hC⟩ := h
  simp only [Scheme.mem_freeVars]
  constructor
  · rintro ⟨ha, hvars⟩
    obtain ⟨c, hc, hac⟩ := hbody.exists_rel ha
    obtain rfl := B.right_unique hab ((hC a c hac).2 hvars)
    exact ⟨hc, mt (hC a b hac).1.2 hvars⟩
  · rintro ⟨hb, hvars⟩
    obtain ⟨c, hc, hcb⟩ := hbody.symm.exists_rel hb
    have hvars' := mt (hC c b hcb).1.1 hvars
    obtain rfl := B.left_unique hab ((hC c b hcb).2 hvars')
    exact ⟨hc, hvars'⟩

/-- Quantified variables stay paired as they were, and new free ones are paired by the matching. This
is one to one because nothing is captured. -/
theorem subst (h : Alike B σ σ') {s s' : Subst} (hs : Subst.Alike B s s') (hσ : σ.NoCapture s)
    (hσ' : σ'.NoCapture s') : Alike B (σ.subst s) (σ'.subst s') := by
  obtain ⟨C, hbody, hC⟩ := h
  let D : Matching := {
    rel := fun a b => (a ∈ σ.vars ∧ b ∈ σ'.vars ∧ C.rel a b) ∨
      (a ∉ σ.vars ∧ b ∉ σ'.vars ∧ B.rel a b)
    left_unique := by
      rintro a a' b (⟨-, hb, h⟩ | ⟨-, hb, h⟩) (⟨-, hb', h'⟩ | ⟨-, hb', h'⟩)
      · exact C.left_unique h h'
      · exact absurd hb hb'
      · exact absurd hb' hb
      · exact B.left_unique h h'
    right_unique := by
      rintro a b b' (⟨ha, -, h⟩ | ⟨ha, -, h⟩) (⟨ha', -, h'⟩ | ⟨ha', -, h'⟩)
      · exact C.right_unique h h'
      · exact absurd ha ha'
      · exact absurd ha' ha
      · exact B.right_unique h h' }
  simp only [Scheme.subst_eq]
  refine ⟨D, hbody.assign fun a ha b hb hab => ?_, ?_⟩
  · obtain ⟨hvars, hfree⟩ := hC a b hab
    by_cases hq : a ∈ σ.vars
    · rw [Assignment.override_of_mem hq, Assignment.override_of_mem (hvars.1 hq)]
      exact .var (.inl ⟨hq, hvars.1 hq, hab⟩)
    · have hq' := mt hvars.2 hq
      rw [Assignment.override_of_notMem hq, Assignment.override_of_notMem hq']
      refine (hs a b (hfree hq)).mono fun c hc d hd hcd => .inr ⟨?_, ?_, hcd⟩
      · exact hσ a (Scheme.mem_freeVars.2 ⟨ha, hq⟩) c hc
      · exact hσ' b (Scheme.mem_freeVars.2 ⟨hb, hq'⟩) d hd
  · rintro a b (⟨ha, hb, -⟩ | ⟨ha, hb, hab⟩)
    · exact ⟨iff_of_true ha hb, fun h => absurd ha h⟩
    · exact ⟨iff_of_false ha hb, fun _ => hab⟩

end Scheme.Alike

/-! ### Environments -/

/-- Environments where each name stands for schemes that are alike, or for nothing. The names that
are not used may stand for anything without free variables. -/
def Env.Alike (B : Matching) (used : List String) (Γ Γ' : Env) : Prop :=
  ∀ x : String, (Γ[x]? = none ∧ Γ'[x]? = none) ∨
    (∃ σ σ', Γ[x]? = some σ ∧ Γ'[x]? = some σ' ∧ σ.Alike B σ') ∨
    (x ∉ used ∧ (∀ σ, Γ[x]? = some σ → σ.freeVars = []) ∧
      ∀ σ', Γ'[x]? = some σ' → σ'.freeVars = [])

namespace Env.Alike

variable {B B' : Matching} {used used' : List String} {Γ Γ' : Env}

theorem mono (h : Alike B used Γ Γ') (hB : ∀ a b, B.rel a b → B'.rel a b)
    (hused : ∀ x ∈ used', x ∈ used) : Alike B' used' Γ Γ' := by
  intro x
  rcases h x with hx | ⟨σ, σ', hσ, hσ', hx⟩ | ⟨hx, hclosed⟩
  · exact .inl hx
  · exact .inr (.inl ⟨σ, σ', hσ, hσ', hx.mono hB⟩)
  · exact .inr (.inr ⟨mt (hused x) hx, hclosed⟩)

theorem mem_freeVars (h : Alike B used Γ Γ') {a b : TyVar} (hab : B.rel a b) :
    a ∈ Γ.freeVars ↔ b ∈ Γ'.freeVars := by
  simp only [Env.mem_freeVars]
  refine exists_congr fun x => ?_
  rcases h x with ⟨hx, hx'⟩ | ⟨σ, σ', hσ, hσ', hx⟩ | ⟨-, hclosed, hclosed'⟩
  · simp [hx, hx']
  · simp only [hσ, hσ', Option.some.injEq, exists_eq_left', hx.mem_freeVars hab]
  · constructor
    · rintro ⟨σ, hσ, ha⟩
      simp [hclosed σ hσ] at ha
    · rintro ⟨σ', hσ', hb⟩
      simp [hclosed' σ' hσ'] at hb

theorem insert (h : Alike B used Γ Γ') {x : String} {σ σ' : Scheme} (hσ : σ.Alike B σ')
    (hused : ∀ y ∈ used', y ≠ x → y ∈ used) :
    Alike B used' (Γ.insert x σ) (Γ'.insert x σ') := by
  intro y
  simp only [Std.ExtTreeMap.getElem?_insert]
  split
  · exact .inr (.inl ⟨σ, σ', rfl, rfl, hσ⟩)
  · rename_i hxy
    have hne : y ≠ x := fun heq => hxy (by simp [heq])
    rcases h y with hy | hy | ⟨hy, hclosed⟩
    · exact .inl hy
    · exact .inr (.inl hy)
    · exact .inr (.inr ⟨fun hy' => hy (hused y hy' hne), hclosed⟩)

theorem subst (h : Alike B used Γ Γ') {s s' : Subst} (hs : Subst.Alike B s s')
    (hΓ : Γ.NoCapture s) (hΓ' : Γ'.NoCapture s') : Alike B used (Γ.subst s) (Γ'.subst s') := by
  have closed : ∀ {Δ : Env} {r : Subst} {x : String}, (∀ σ, Δ[x]? = some σ → σ.freeVars = []) →
      ∀ σ, (Δ.subst r)[x]? = some σ → σ.freeVars = [] := by
    intro Δ r x hΔ σ hσ
    rw [getElem?_subst, Option.map_eq_some_iff] at hσ
    obtain ⟨σ₀, hσ₀, rfl⟩ := hσ
    exact Decidable.not_not.1 fun hne => Scheme.freeVars_ne_nil_of_subst hne (hΔ σ₀ hσ₀)
  intro x
  rcases h x with ⟨hx, hx'⟩ | ⟨σ, σ', hσ, hσ', hx⟩ | ⟨hx, hclosed, hclosed'⟩
  · exact .inl (by simp [hx, hx'])
  · refine .inr (.inl ⟨σ.subst s, σ'.subst s', by simp [hσ], by simp [hσ'], ?_⟩)
    exact hx.subst hs (hΓ x σ hσ) (hΓ' x σ' hσ')
  · exact .inr (.inr ⟨hx, closed hclosed, closed hclosed'⟩)

/-- A `let` gives schemes that are alike to its name. -/
theorem scheme (h : Alike B used Γ Γ') {t t' : Ty} (ht : Ty.Alike B t t') (policy : LetPolicy) :
    (policy.scheme Γ t).Alike B (policy.scheme Γ' t') := by
  cases policy with
  | monomorphic => exact .of_ty ht
  | generalize =>
    refine ⟨B, ht, fun a b hab => ⟨?_, fun _ => hab⟩⟩
    simp only [LetPolicy.scheme, mem_vars_generalize, ht.mem_freeVars hab, h.mem_freeVars hab]

end Env.Alike

end LetPoly
