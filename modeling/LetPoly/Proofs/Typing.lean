import LetPoly.Infer
import LetPoly.Proofs.Instance
import Mathlib.Logic.Function.Basic

/-!
# The type system

`HasType policy Γ e t` is the judgement `Γ ⊢ e : t` of the Hindley-Milner system, with one rule for
each form of expression. It says which types an expression has, not how to find one. The rule for
`let` follows the policy: the type of the bound expression is quantified over its variables that
are not free in the environment, or over none.

Typing is stable in two directions at once (`HasType.transport`): the free variables of the
environment may be replaced, and its schemes may be exchanged for more general ones.
-/

namespace LetPoly

/-- Which schemes a `let` may bind its name to, given the type of the bound expression. The order in
which variables are quantified does not matter. -/
def LetPolicy.Binds (policy : LetPolicy) (env : Env) (t : Ty) (σ : Scheme) : Prop :=
  match policy with
  | .generalize => σ.body = t ∧ ∀ a, a ∈ σ.vars ↔ a ∈ t.freeVars ∧ a ∉ env.freeVars
  | .monomorphic => σ = .mono t

theorem LetPolicy.binds_scheme (policy : LetPolicy) (env : Env) (t : Ty) :
    policy.Binds env t (policy.scheme env t) := by
  cases policy with
  | generalize => exact ⟨rfl, fun a => Env.mem_vars_generalize⟩
  | monomorphic => rfl

/-- The types of an expression in an environment. -/
inductive HasType (policy : LetPolicy) : Env → Expr → Ty → Prop where
  | var {Γ : Env} {x : String} {σ : Scheme} {t : Ty} :
    Γ[x]? = some σ → σ.Instance t → HasType policy Γ (.var x) t
  | lit {Γ : Env} (l : Literal) : HasType policy Γ (.lit l) l.ty
  | app {Γ : Env} {f a : Expr} {t u : Ty} :
    HasType policy Γ f (.fn t u) → HasType policy Γ a t → HasType policy Γ (.app f a) u
  | abs {Γ : Env} {x : String} {e : Expr} {t u : Ty} :
    HasType policy (Γ.insert x (.mono t)) e u → HasType policy Γ (.abs x e) (.fn t u)
  | letIn {Γ : Env} {x : String} {b e : Expr} {t u : Ty} {σ : Scheme} :
    HasType policy Γ b t → policy.Binds Γ t σ → HasType policy (Γ.insert x σ) e u →
    HasType policy Γ (.letIn x b e) u

/-- All variables can be renamed apart from finitely many. -/
theorem TyVar.exists_renaming (avoid : List TyVar) :
    ∃ ν : TyVar → TyVar, ν.Injective ∧ ∀ a, ν a ∉ avoid := by
  obtain ⟨n, hn⟩ : ∃ n, ∀ b ∈ avoid, b.length ≤ n := by
    induction avoid with
    | nil => exact ⟨0, by simp⟩
    | cons b avoid ih =>
      obtain ⟨n, hn⟩ := ih
      exact ⟨max b.length n, by simp; grind⟩
  -- names that start with more characters than any name to avoid has in all
  refine ⟨fun a => String.ofList (List.replicate (n + 1) 'v') ++ a, fun a b h => ?_, fun a ha => ?_⟩
  · simpa using h
  · have := hn _ ha
    simp only [String.length_append, String.length_ofList, List.length_replicate] at this
    omega

/-- Generalizing commutes with an assignment of the environment's variables, if the variables to be
quantified are renamed out of the way. -/
theorem Scheme.le_generalize {Γ : Env} {t : Ty} {σ : Scheme}
    (hσ : LetPolicy.generalize.Binds Γ t σ) (θ : Assignment) (Γ' : Env) :
    ∃ η : Assignment, (∀ a ∈ Γ.freeVars, η a = θ a) ∧
      Scheme.Le θ σ .var (Γ'.generalize (t.assign η)) := by
  obtain ⟨hbody, hvars⟩ := hσ
  obtain ⟨ν, hν, havoid⟩ := TyVar.exists_renaming (Γ'.freeVars ++ (t.assign θ).freeVars)
  refine ⟨fun a => if a ∈ Γ.freeVars then θ a else .var (ν a), fun a ha => if_pos ha, ?_⟩
  rintro u ⟨r, rfl⟩
  refine ⟨Function.extend ν r .var, ?_⟩
  rw [hbody, Env.body_generalize, Ty.assign_assign]
  refine Ty.assign_congr fun a ha => ?_
  by_cases hΓ : a ∈ Γ.freeVars
  · -- nothing that is put for `a` has been renamed
    rw [Assignment.override_of_notMem (by simp [hvars, hΓ]), if_pos hΓ]
    refine (Ty.assign_eq_self fun b hb => ?_).symm
    have hb : ¬ ∃ c, ν c = b := by
      rintro ⟨c, rfl⟩
      exact havoid c (List.mem_append_right _ (Ty.mem_freeVars_assign.2 ⟨a, ha, hb⟩))
    simp only [Assignment.override, Function.extend_apply' _ _ _ hb, ite_self]
  · rw [Assignment.override_of_mem ((hvars a).2 ⟨ha, hΓ⟩), if_neg hΓ, Ty.assign,
      Assignment.override_of_mem, hν.extend_apply]
    have hfree : ν a ∉ Γ'.freeVars := fun h => havoid a (List.mem_append_left _ h)
    refine Env.mem_vars_generalize.2 ⟨Ty.mem_freeVars_assign.2 ⟨a, ha, ?_⟩, hfree⟩
    simp [hΓ]

/-- A type of an expression stays one when the free variables of the environment are replaced in
both, and in any environment that is more general than what results. -/
theorem HasType.transport {policy : LetPolicy} {Γ : Env} {e : Expr} {t : Ty}
    (h : HasType policy Γ e t) :
    ∀ {θ : Assignment} {Γ' : Env}, Env.Le θ Γ .var Γ' → HasType policy Γ' e (t.assign θ) := by
  induction h with
  | @var Γ x σ t hx hinst =>
    intro θ Γ' hle
    rcases hle x with ⟨hnone, -⟩ | ⟨σ₁, σ', hσ, hσ', hle⟩
    · rw [hx] at hnone
      cases hnone
    · rw [hx] at hσ
      obtain rfl := Option.some.inj hσ
      refine .var hσ' (Scheme.instanceUnder_var.1 (hle _ ?_))
      exact (Scheme.instanceUnder_var.2 hinst).assign θ
  | lit l =>
    intro θ Γ' _
    cases l <;> exact .lit _
  | app _ _ ihf iha =>
    intro θ Γ' hle
    exact .app (ihf hle) (iha hle)
  | abs _ ih =>
    intro θ Γ' hle
    exact .abs (ih (hle.insert _ (by simp [Scheme.Le])))
  | @letIn Γ x b e t u σ _ hσ _ ihb ihe =>
    intro θ Γ' hle
    cases policy with
    | generalize =>
      obtain ⟨η, hη, hgen⟩ := Scheme.le_generalize hσ θ Γ'
      have hb := ihb (hle.congr hη fun _ _ => rfl)
      exact .letIn hb (LetPolicy.binds_scheme .generalize Γ' _) (ihe (hle.insert x hgen))
    | monomorphic =>
      obtain rfl : σ = .mono t := hσ
      refine .letIn (ihb hle) rfl (ihe (hle.insert x ?_))
      simp [Scheme.Le]

end LetPoly
