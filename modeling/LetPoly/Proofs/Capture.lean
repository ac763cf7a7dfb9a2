import LetPoly.Proofs.Instance

/-!
# Substituting in schemes, and what it captures

A substitution is applied to a scheme without renaming, so a variable that it brings can meet a
quantified one of the same name. Whether this does harm can be read off: the instances of the scheme
stay instances exactly when no quantified variable that the body uses comes with what is put for a
free one (`Scheme.subst_keeps_instances_iff`).

The instance with `Int` for all quantified variables shows that the condition is needed: a captured
variable would have to stay itself where it was brought in, and be `Int` where it was quantified.
-/

namespace LetPoly

/-- What an assignment makes of a type says what it makes of each variable in it. -/
theorem Ty.eq_of_assign_eq {θ η : Assignment} {t : Ty} (h : t.assign θ = t.assign η) :
    ∀ a ∈ t.freeVars, θ a = η a := by
  induction t with
  | var a =>
    intro b hb
    obtain rfl : b = a := by simpa using hb
    exact h
  | fn t u iht ihu =>
    intro a ha
    simp only [assign, fn.injEq] at h
    rcases mem_freeVars_fn.1 ha with ha | ha
    · exact iht h.1 a ha
    · exact ihu h.2 a ha
  | int | bool => simp

namespace Scheme

/-- A substitution captures a variable of a scheme: the variable comes with what is put for a free
one, and the same name is quantified and used. -/
def Captures (s : Subst) (σ : Scheme) (b : TyVar) : Prop :=
  b ∈ σ.vars ∧ b ∈ σ.body.freeVars ∧ ∃ a ∈ σ.freeVars, b ∈ (s.assignment a).freeVars

/-- An instance is the body under an assignment that leaves the free variables alone. -/
theorem instance_iff {σ : Scheme} {t : Ty} :
    σ.Instance t ↔ ∃ r : Assignment, t = σ.body.assign (Assignment.override .var σ.vars r) :=
  instanceUnder_var.symm

/-- The same for a scheme under a substitution, seen from the body of the scheme. -/
theorem instance_subst_iff {s : Subst} {σ : Scheme} {t : Ty} :
    (σ.subst s).Instance t ↔ ∃ r : Assignment, t = σ.body.assign fun a =>
      (s.assignment.override σ.vars .var a).assign (Assignment.override .var σ.vars r) := by
  simp only [instance_iff, subst_eq, Ty.assign_assign]

/-- Without capture an instance under the substitution is an instance of the scheme under it. -/
theorem Instance.subst {s : Subst} {σ : Scheme} {t : Ty} (hs : ∀ b, ¬ σ.Captures s b)
    (ht : σ.Instance t) : (σ.subst s).Instance (t.subst s) := by
  obtain ⟨r, rfl⟩ := instance_iff.1 ht
  -- quantified variables that the body does not use may be brought in: they stay as they are
  refine instance_subst_iff.2
    ⟨fun b => if b ∈ σ.body.freeVars then (r b).assign s.assignment else .var b, ?_⟩
  rw [Ty.subst_eq_assign, Ty.assign_assign]
  refine Ty.assign_congr fun a hbody => ?_
  by_cases ha : a ∈ σ.vars
  · simp only [Assignment.override_of_mem ha, Ty.assign, if_pos hbody]
  · simp only [Assignment.override_of_notMem ha, Ty.assign]
    refine (Ty.assign_eq_self fun b hb => ?_).symm
    by_cases hq : b ∈ σ.vars
    · have hunused : b ∉ σ.body.freeVars := fun hused =>
        hs b ⟨hq, hused, a, mem_freeVars.2 ⟨hbody, ha⟩, hb⟩
      rw [Assignment.override_of_mem hq, if_neg hunused]
    · rw [Assignment.override_of_notMem hq]

/-- If the instance with `Int` for all quantified variables stays an instance, nothing is captured. -/
theorem not_captures_of_instance {s : Subst} {σ : Scheme}
    (h : (σ.subst s).Instance
      ((σ.body.assign (Assignment.override .var σ.vars fun _ => .int)).subst s)) (b : TyVar) :
    ¬ σ.Captures s b := by
  rintro ⟨hq, hused, a, ha, hb⟩
  obtain ⟨hbody, hfree⟩ := mem_freeVars.1 ha
  obtain ⟨r, heq⟩ := instance_subst_iff.1 h
  rw [Ty.subst_eq_assign, Ty.assign_assign] at heq
  have heq := Ty.eq_of_assign_eq heq
  -- where `b` was brought in it has to stay itself
  have hkept : r b = .var b := by
    have hfixed := heq a hbody
    simp only [Assignment.override_of_notMem hfree, Ty.assign] at hfixed
    have hself := Ty.eq_of_assign_eq ((Ty.assign_var _).trans hfixed) b hb
    rw [Assignment.override_of_mem hq] at hself
    exact hself.symm
  have hint := heq b hused
  simp only [Assignment.override_of_mem hq, Ty.assign, hkept] at hint
  cases hint

/-- **Substituting keeps the instances of a scheme exactly when it captures nothing.** -/
theorem subst_keeps_instances_iff (s : Subst) (σ : Scheme) :
    (∀ t, σ.Instance t → (σ.subst s).Instance (t.subst s)) ↔ ∀ b, ¬ σ.Captures s b := by
  constructor
  · intro h
    exact not_captures_of_instance (h _ (instance_iff.2 ⟨fun _ => .int, rfl⟩))
  · intro hs t ht
    exact ht.subst hs

/-- `Int -> b` is an instance of `forall a. a -> b`. With `a` for `b` it is `Int -> a`, and the scheme is
`forall a. a -> a`, of which it is no instance. -/
theorem subst_loses_instance :
    let s : Subst := .single "b" (.var "a")
    let σ : Scheme := ⟨["a"], .fn (.var "a") (.var "b")⟩
    let t : Ty := .fn .int (.var "b")
    σ.Instance t ∧ ¬ (σ.subst s).Instance (t.subst s) := by
  intro s σ t
  have hσ : σ.subst s = ⟨["a"], .fn (.var "a") (.var "a")⟩ := by decide +kernel
  have ht : t.subst s = .fn .int (.var "a") := by decide +kernel
  refine ⟨instance_iff.2 ⟨fun _ => .int, rfl⟩, ?_⟩
  rw [hσ, ht]
  rintro ⟨r, -, hr⟩
  simp only [Ty.subst, Ty.fn.injEq] at hr
  exact absurd (hr.1.trans hr.2.symm) (by simp)

end Scheme

end LetPoly
