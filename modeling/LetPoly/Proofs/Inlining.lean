import LetPoly.Proofs.Capture
import LetPoly.Proofs.Replacement
import LetPoly.Proofs.Simulation

/-!
# A generalizing `let` is its body with the bound expression in place

`let x = b in c` has the types of `c` with `b` for `x`, if `c` uses `x` and binds no name of `b` around
it. Each use of `x` may take another instance of the scheme of `x`, and each copy of `b` another type
of `b`. The two come to the same because the types of `b` are exactly the instances of one scheme
(`HasType.exists_principal`). This is needed in all environments, also those in which `b` stands under
parameters whose types are not known, so it goes beyond what inference finds in a closed one: the free
variables of the environment have to stay as they are.

If `c` does not use `x`, then `c` alone may have types where `b` has none.
-/

namespace LetPoly

/-! ### The scheme of an expression in any environment -/

namespace Env

end Env

namespace HasType

variable {policy : LetPolicy} {Γ : Env} {e : Expr} {t u : Ty} {σ : Scheme}

end HasType

/-! ### The names of an expression -/

/-- Environments that bind some names alike. -/
def Env.AgreeOn (used : String → Prop) (Γ Γ' : Env) : Prop := ∀ y, used y → Γ[y]? = Γ'[y]?

theorem Env.AgreeOn.insert {used used' : String → Prop} {Γ Γ' : Env} (h : Env.AgreeOn used Γ Γ')
    {x : String} (hused : ∀ y, used' y → y ≠ x → used y) (σ : Scheme) :
    Env.AgreeOn used' (Γ.insert x σ) (Γ'.insert x σ) := by
  intro y hy
  simp only [Std.ExtTreeMap.getElem?_insert]
  split
  · rfl
  · rename_i hxy
    exact h y (hused y hy fun heq => hxy (by simp [heq]))

/-- Only the names that an expression uses matter to its types. -/
theorem HasType.congr_env {policy : LetPolicy} {e : Expr} {Γ Γ' : Env} {t : Ty}
    (h : HasType policy Γ e t) (hΓ : Env.AgreeOn (· ∈ e.freeVars) Γ Γ') : HasType policy Γ' e t := by
  induction e generalizing Γ Γ' t with
  | var x =>
    cases h with
    | var hx hinst => exact .var (hΓ x (by simp [Expr.freeVars]) ▸ hx) hinst
  | lit l =>
    cases h with
    | lit => exact .lit l
  | app f a ihf iha =>
    refine h.app_map (fun _ hf => ihf hf fun y hy => ?_) fun _ ha => iha ha fun y hy => ?_
    · exact hΓ y (Expr.mem_freeVars_app.2 (.inl hy))
    · exact hΓ y (Expr.mem_freeVars_app.2 (.inr hy))
  | abs x e ih =>
    refine h.abs_map fun σ _ he => ih he (hΓ.insert (fun y hy hyx => ?_) σ)
    exact Expr.mem_freeVars_abs.2 ⟨hy, hyx⟩
  | letIn x b e ihb ihe =>
    refine h.letIn_map (fun _ hb => ihb hb fun y hy => ?_)
      fun σ _ he => ihe he (hΓ.insert (fun y hy hyx => ?_) σ)
    · exact hΓ y (Expr.mem_freeVars_letIn.2 (.inl hy))
    · exact Expr.mem_freeVars_letIn.2 (.inr ⟨hy, hyx⟩)

theorem HasType.congr_env_iff {policy : LetPolicy} {e : Expr} {Γ Γ' : Env} {t : Ty}
    (hΓ : Env.AgreeOn (· ∈ e.freeVars) Γ Γ') : HasType policy Γ e t ↔ HasType policy Γ' e t :=
  ⟨fun h => h.congr_env hΓ, fun h => h.congr_env fun y hy => (hΓ y hy).symm⟩

/-- A name that an expression does not use may be bound to anything. -/
theorem HasType.insert_iff {policy : LetPolicy} {e : Expr} {Γ : Env} {t : Ty} {y : String}
    (hy : y ∉ e.freeVars) (σ : Scheme) :
    HasType policy (Γ.insert y σ) e t ↔ HasType policy Γ e t := by
  refine congr_env_iff fun z hz => ?_
  have hyz : y ≠ z := fun heq => hy (heq ▸ hz)
  rw [Std.ExtTreeMap.getElem?_insert, if_neg (by simpa using hyz)]

/-! ### Inlining -/

namespace Expr

/-- Puts an expression for all free occurrences of `x`. Nothing is renamed. -/
def inline (x : String) : Expr → Expr → Expr
  | .var y, b => if y = x then b else .var y
  | .lit l, _ => .lit l
  | .app f a, b => .app (f.inline x b) (a.inline x b)
  | .abs y e, b => .abs y (if y = x then e else e.inline x b)
  | .letIn y d e, b => .letIn y (d.inline x b) (if y = x then e else e.inline x b)

/-- An expression may be put for `x`: around no free occurrence of `x` a name is bound that is free in
it. -/
def Admits (x : String) : Expr → Expr → Prop
  | .var _, _ | .lit _, _ => True
  | .app f a, b => f.Admits x b ∧ a.Admits x b
  | .abs y e, b => y = x ∨ (x ∈ e.freeVars → y ∉ b.freeVars) ∧ e.Admits x b
  | .letIn y d e, b => d.Admits x b ∧ (y = x ∨ (x ∈ e.freeVars → y ∉ b.freeVars) ∧ e.Admits x b)

end Expr

/-- `x` has in `Γ` the types that `b` has in `Γ'`, and other names are bound alike. -/
structure Env.Inlines (policy : LetPolicy) (x : String) (b : Expr) (used : String → Prop)
    (Γ Γ' : Env) : Prop where
  agree : Env.AgreeOn (fun y => used y ∧ y ≠ x) Γ Γ'
  types : used x → ∀ t, HasType policy Γ (.var x) t ↔ HasType policy Γ' b t

namespace Env.Inlines

variable {policy : LetPolicy} {x y : String} {b e : Expr} {used used' : String → Prop} {Γ Γ' : Env}

theorem mono (h : Inlines policy x b used Γ Γ') (hused : ∀ y, used' y → used y) :
    Inlines policy x b used' Γ Γ' :=
  ⟨fun y hy => h.agree y ⟨hused y hy.1, hy.2⟩, fun hx => h.types (hused x hx)⟩

/-- Another name may be bound if it is not free in `b`. -/
theorem insert (h : Inlines policy x b used Γ Γ') (hyx : y ≠ x) (hb : used' x → y ∉ b.freeVars)
    (hused : ∀ z, used' z → z ≠ y → used z) (σ : Scheme) :
    Inlines policy x b used' (Γ.insert y σ) (Γ'.insert y σ) where
  agree := h.agree.insert (fun z hz hzy => ⟨hused z hz.1 hzy, hz.2⟩) σ
  types hx t := by
    have hvar : y ∉ (Expr.var x).freeVars := by simpa [Expr.freeVars] using hyx
    rw [HasType.insert_iff hvar, HasType.insert_iff (hb hx)]
    exact h.types (hused x hx hyx.symm) t

/-- What stands under a binder, where `x` may be bound anew. -/
theorem under_binder (h : Inlines policy x b used Γ Γ')
    (ih : ∀ {Γ Γ' : Env} {u : Ty}, Inlines policy x b (· ∈ e.freeVars) Γ Γ' → e.Admits x b →
      (HasType policy Γ e u ↔ HasType policy Γ' (e.inline x b) u))
    (hused : ∀ z ∈ e.freeVars, z ≠ y → used z)
    (hb : y = x ∨ (x ∈ e.freeVars → y ∉ b.freeVars) ∧ e.Admits x b) (σ : Scheme) (u : Ty) :
    HasType policy (Γ.insert y σ) e u ↔
      HasType policy (Γ'.insert y σ) (if y = x then e else e.inline x b) u := by
  by_cases hyx : y = x
  · subst hyx
    rw [if_pos rfl]
    exact HasType.congr_env_iff (h.agree.insert (fun z hz hzy => ⟨hused z hz hzy, hzy⟩) σ)
  · obtain ⟨hfree, hadmits⟩ := hb.resolve_left hyx
    rw [if_neg hyx]
    exact ih (h.insert hyx hfree hused σ) hadmits

end Env.Inlines

namespace HasType

variable {policy : LetPolicy} {x : String} {b c : Expr} {Γ Γ' : Env} {u : Ty}

end HasType

end LetPoly
