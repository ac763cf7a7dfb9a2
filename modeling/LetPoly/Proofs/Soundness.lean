import LetPoly.Proofs.Scope
import LetPoly.Proofs.Typing
import LetPoly.Proofs.Unifier
import Mathlib.Tactic
import Std.Data.TreeMap

/-!
# Inferred types are types

Whatever `infer` finds is a type of the expression in the environment under the substitution that
comes with it (`Infers.sound`). The induction follows the rules of a run. What is known about an
earlier part of the expression has to survive the substitutions of the later parts; it does because
these capture nothing in the environment (`HasType.compose`). At a `let` the variables that were
generalized are out of the reach of all that follows (`Env.quantified_notMem_scope`), so the scheme
is still one that the rule for `let` may bind in the final environment.
-/

namespace LetPoly

/-- A type stays one when more is substituted, if nothing is captured on the way. -/
theorem HasType.compose {policy : LetPolicy} {Γ : Env} {e : Expr} {t : Ty} {s r : Subst}
    (h : HasType policy (Γ.subst r) e t) (hr : Γ.NoCapture r) (hsr : Γ.NoCapture (s.compose r)) :
    HasType policy (Γ.subst (s.compose r)) e (t.subst s) := by
  rw [Ty.subst_eq_assign]
  refine h.transport (.subst_right hsr (.subst_left hr ?_))
  simp only [Subst.assignment_compose, Ty.assign_var]
  exact .refl _ Γ

/-- What a `let` quantifies is not in the scope of its body. -/
theorem Env.quantified_notMem_scope {Γ : Env} {t : Ty} {k m : Nat} {x : String} {q : TyVar}
    (ht : ∀ a ∈ t.freeVars, a ∉ TyVar.drawn k m) (hq : q ∈ (Γ.generalize t).vars) :
    q ∉ Env.scope (Γ.insert x (Γ.generalize t)) k m := by
  obtain ⟨hqt, hqΓ⟩ := mem_vars_generalize.1 hq
  intro hmem
  rcases Env.mem_scope.1 hmem with hmem | hmem
  · rcases Env.mem_freeVars_insert hmem with hmem | hmem
    · exact (Scheme.mem_freeVars.1 hmem).2 hq
    · exact hqΓ hmem
  · exact ht q hqt hmem

/-- The scheme of a `let`, under what its body substitutes, is no more general than the scheme that
the substituted type would get. -/
theorem LetPolicy.le_scheme_subst (policy : LetPolicy) {Γ : Env} {t : Ty} {k m : Nat} {x : String}
    {s : Subst} (ht : ∀ a ∈ t.freeVars, a ∉ TyVar.drawn k m)
    (hs : s.Solved (Env.scope (Γ.insert x (policy.scheme Γ t)) k m)) :
    Scheme.Le .var ((policy.scheme Γ t).subst s) .var
      (policy.scheme (Γ.subst s) (t.subst s)) := by
  cases policy with
  | monomorphic =>
    rw [scheme, Scheme.subst_mono]
    exact fun _ hu => hu
  | generalize =>
    simp only [scheme] at hs ⊢
    have hq : ∀ q ∈ (Γ.generalize t).vars, q ∉ Env.scope (Γ.insert x (Γ.generalize t)) k m :=
      fun q hq => Env.quantified_notMem_scope ht hq
    -- `s` does nothing to the quantified variables
    have hbody : t.assign (s.assignment.override (Γ.generalize t).vars .var) = t.subst s := by
      rw [Ty.subst_eq_assign]
      refine Ty.assign_congr fun a _ => ?_
      by_cases ha : a ∈ (Γ.generalize t).vars
      · have has : a ∉ s := fun h => hq a ha (hs.mem_of_bound a h)
        rw [Assignment.override_of_mem ha, Subst.assignment_of_notMem has]
      · rw [Assignment.override_of_notMem ha]
    -- and puts none of them into the environment, not even where `x` was bound before
    have hfree : ∀ q ∈ (Γ.generalize t).vars, q ∉ (Γ.subst s).freeVars := by
      intro q hqvars hmem
      obtain ⟨c, hc, hqc⟩ := Env.exists_of_mem_freeVars_subst hmem
      rcases Subst.mem_freeVars_assignment hqc with rfl | ⟨u, hu, hqu⟩
      · exact (Env.mem_vars_generalize.1 hqvars).2 hc
      · exact hq q hqvars (hs.mem_of_mem c u hu q hqu)
    intro u hu
    rw [Scheme.subst_eq, Env.body_generalize, hbody] at hu
    exact hu.of_vars fun a ha hvars => Env.mem_vars_generalize.2 ⟨ha, hfree a hvars⟩

namespace Infers

/-- **Soundness.** What is inferred can be derived. -/
theorem sound {policy : LetPolicy} {Γ : Env} {n m : Nat} {e : Expr} {s : Subst} {t : Ty}
    (h : Infers policy Γ n e s t m) : Γ.Ready n m → HasType policy (Γ.subst s) e t := by
  induction h with
  | @var Γ n x σ hx =>
    intro _
    rw [Env.subst_empty]
    exact .var hx ⟨σ.renewal n, fun a ha => Scheme.mem_renewal.1 ha, rfl⟩
  | lit l =>
    intro _
    exact .lit l
  | @app Γ n m₀ m₁ f a s₀ s₁ s₂ tf ta hf ha hu ihf iha =>
    intro hΓ
    have hΓ₁ := hΓ.mono (Nat.le_refl n) (Nat.le_succ m₁)
    have hΓ₀ := hΓ₁.mono (Nat.le_refl n) ha.le
    obtain ⟨hs₀, -, hs₁₀⟩ := hf.solved_compose ha hΓ₁.unknown
    obtain ⟨hs, -⟩ := (Infers.app hf ha hu).solved hΓ.unknown
    have cap₀ := hΓ₀.noCapture hs₀
    have cap₁ := hΓ₁.noCapture hs₁₀
    have cap := hΓ.noCapture hs
    -- both parts, brought under the whole substitution
    have hfun := ((ihf hΓ₀).compose cap₀ cap₁).compose cap₁ cap
    have harg := iha (hΓ₁.subst hf.le ha.le hs₀)
    rw [← Env.subst_subst cap₀] at harg
    have harg := harg.compose cap₁ cap
    rw [((unify_decides _ _).ok s₂ hu).unifies, Ty.subst] at hfun
    exact .app hfun harg
  | @abs Γ n m x e s te he ih =>
    intro hΓ
    have hbody := ih (hΓ.param he.le x)
    rw [Env.subst_insert, Scheme.subst_mono] at hbody
    exact .abs hbody
  | @letIn Γ n m₁ m x b e s₁ s₂ tb te hb he ihb ihe =>
    intro hΓ
    have h₁ := hb.le
    have h₂ := he.le
    have hunknown := hΓ.unknown.mono (Nat.le_refl n) h₂
    obtain ⟨hs, -⟩ := (Infers.letIn hb he).solved hΓ.unknown
    obtain ⟨hs₁, htb⟩ := hb.solved hunknown
    have hready := hΓ.letIn h₁ h₂ hs₁ (fun a ha => (htb a ha).1) policy x
    obtain ⟨hs₂, -⟩ := he.solved hready.unknown
    have cap₁ := (hΓ.mono (Nat.le_refl n) h₂).noCapture hs₁
    have cap := hΓ.noCapture hs
    have hbody := ihe hready
    rw [Env.subst_insert, ← Env.subst_subst cap₁] at hbody
    have htb₁ : tb.subst s₁ = tb := Ty.subst_eq_self fun a ha => (htb a ha).2
    rw [htb₁] at hs₂ hbody
    have hdrawn : ∀ a ∈ tb.freeVars, a ∉ TyVar.drawn m₁ m :=
      fun a ha => hΓ.unknown.notMem_drawn h₁ (htb a ha).1
    have hbound := (ihb (hΓ.mono (Nat.le_refl n) h₂)).compose cap₁ cap
    refine .letIn hbound (policy.binds_scheme _ _) ?_
    have hle := policy.le_scheme_subst hdrawn hs₂
    rw [← Env.subst_subst cap₁] at hle
    simpa using hbody.transport ((Env.Le.refl .var _).insert x hle)

end Infers

/-- **Inference is sound.** In an environment where no variable is both quantified and free, whatever
`infer` finds with the first fresh variables is a type of the expression in the environment under
the substitution found. The counter must not run over its 32 bits. -/
theorem infer_sound (policy : LetPolicy) (env : Env) (e : Expr) (s : Subst) (t : Ty)
    (hsep : env.Separated) (hok : (infer policy env e env.firstFresh).result = .ok (s, t))
    (hcount : (infer policy env e env.firstFresh).next ≤ TyVar.maxNumber) :
    HasType policy (env.subst s) e t :=
  (infer_yields_iff.1 ⟨hok, rfl⟩).sound (hsep.ready hcount)

/-- An environment with a free variable `a`, in the type of `x` and in the scheme of `keep`. -/
def Env.withShared : Env := .ofList [
  ("x", .mono (.var "a")),
  ("keep", ⟨["q"], .curried [.var "a", .var "q"] (.var "a")⟩),
  ("succ", .mono (.fn .int .int))]

/-- `let f = keep x in succ (f true)`: only after `f` was generalized it turns out that `a`, which is
free in its scheme, is `Int`. -/
def Expr.usingShared : Expr :=
  .letIn "f" (.app (.var "keep") (.var "x"))
    (.app (.var "succ") (.app (.var "f") (.lit (.bool true))))

theorem infer_sound_usingShared :
    ∃ s, (infer .generalize .withShared .usingShared Env.withShared.firstFresh).result
        = .ok (s, .int) ∧
      HasType .generalize (Env.withShared.subst s) .usingShared .int := by
  have hrun : ((infer .generalize .withShared .usingShared Env.withShared.firstFresh).result.map
      Prod.snd, (infer .generalize .withShared .usingShared Env.withShared.firstFresh).next)
      = (.ok .int, 5) := by cbv
  obtain ⟨hty, hnext⟩ := Prod.mk.inj hrun
  cases hok : (infer .generalize .withShared .usingShared Env.withShared.firstFresh).result with
  | error e =>
    rw [hok] at hty
    cases hty
  | ok st =>
    rw [hok] at hty
    obtain ⟨s, t⟩ := st
    obtain rfl : t = .int := Except.ok.inj hty
    refine ⟨s, rfl, infer_sound .generalize .withShared .usingShared s .int ?_ hok ?_⟩
    · decide +kernel
    · rw [hnext]
      decide

end LetPoly
