import LetPoly.Proofs.Simulation
import Mathlib.Tactic
import Std.Data.TreeMap

/-!
# What type errors show

A type error is evidence that can be looked at without the run that found it. A name is reported as
unbound only if the expression takes it from the environment and the environment lacks it; a type as
infinite only if it is a function type with the variable inside; a mismatch only if the two types
start differently. The last two are errors of unification, which compares types that have been
substituted in many times before. What they say does not depend on that (`unify_error_unsolvable`):
each error is found at one pair of types, and passed on as it is.

`InferM.Judges` says what the outcome of a computation shows, whatever the counter. It is put together
along binds, so it is proved of `infer` by induction on the expression (`infer_judges`).
-/

namespace LetPoly

/-! ### Unification -/

/-- What an error says about types cannot be mended by any substitution. -/
def TypeError.Unsolvable : TypeError → Prop
  | .unboundVariable _ => False
  | .infinite a t => t.isFn = true ∧ t.occurs a = true
  | .mismatch t u => t.clash u = true

theorem Ty.clash_iff {t u : Ty} :
    t.clash u = true ↔ t.isVar = false ∧ u.isVar = false ∧ t.ctorIdx ≠ u.ctorIdx := by
  cases t <;> cases u <;> simp [clash, isVar, Ty.ctorIdx]

/-- Substituting does not change how a type starts, unless it starts with a variable. -/
theorem Ty.subst_ne_of_clash {t u : Ty} (h : t.clash u = true) (q : Subst) :
    t.subst q ≠ u.subst q := by
  cases t <;> cases u <;> simp [clash, subst] at h ⊢

/-- A type stays larger than the variables in it, whatever is put for them. -/
theorem Ty.subst_ne_of_occurs {a : TyVar} {t : Ty} (hfn : t.isFn = true) (hocc : t.occurs a = true)
    (q : Subst) : (Ty.var a).subst q ≠ t.subst q := by
  have hself : t ≠ .var a := by
    rintro rfl
    cases hfn
  have hlt := Ty.size_assign_lt (occurs_eq_true_iff.1 hocc) hself q.assignment
  rw [subst_eq_assign, subst_eq_assign, assign]
  intro heq
  rw [heq] at hlt
  exact absurd hlt (Nat.lt_irrefl _)

theorem Unify.bindVar_error_unsolvable {a : TyVar} {t : Ty} {e : TypeError}
    (h : (bindVar a t).result = .error e) : e.Unsolvable := by
  unfold bindVar at h
  split at h
  · cases h
  · rename_i hself
    split at h
    · rename_i hocc
      cases h
      refine ⟨?_, hocc⟩
      -- the variable occurs in the type and is not the type itself
      cases t with
      | var b =>
        obtain rfl : a = b := by simpa [Ty.occurs] using hocc
        exact absurd rfl hself
      | fn l r => rfl
      | int | bool => simp [Ty.occurs] at hocc
    · cases h

/-- **Errors of unification are about types that no substitution makes equal.** -/
theorem unify_error_unsolvable {t u : Ty} {e : TypeError} (h : (unify t u).result = .error e) :
    e.Unsolvable := by
  induction t, u using Unify.induction with
  | int =>
    rw [unify_int_int] at h
    cases h
  | bool =>
    rw [unify_bool_bool] at h
    cases h
  | varLeft a u =>
    rw [unify_var_left] at h
    exact Unify.bindVar_error_unsolvable h
  | varRight t a ht =>
    rw [unify_var_right a ht] at h
    exact Unify.bindVar_error_unsolvable h
  | fn l r l' r' iharg ihres =>
    rw [unify_fn_fn, Unification.result_andThen] at h
    cases harg : (unify l l').result with
    | error e' =>
      obtain rfl : e' = e := by simpa [harg, Except.bind] using h
      exact iharg harg
    | ok s =>
      cases hres : (unify (r.subst s) (r'.subst s)).result with
      | error e' =>
        obtain rfl : e' = e := by simpa [harg, hres, Except.bind, Except.map] using h
        exact ihres s harg hres
      | ok s' => simp [harg, hres, Except.bind, Except.map] at h
  | clash t u hclash =>
    rw [unify_of_clash hclash] at h
    cases h
    exact hclash

/-! ### Computations -/

namespace InferM

variable {α β : Type} {P Q : Prop} {E F : TypeError → Prop}

/-- Wherever the counter stands, a computation succeeds only if `P` holds, and fails only with errors
of which `E` holds. -/
structure Judges (x : InferM α) (P : Prop) (E : TypeError → Prop) : Prop where
  ok : ∀ n a, (x n).result = .ok a → P
  error : ∀ n e, (x n).result = .error e → E e

namespace Judges

theorem mono {x : InferM α} (h : x.Judges P E) (hP : P → Q) (hE : ∀ e, E e → F e) :
    x.Judges Q F where
  ok n a ha := hP (h.ok n a ha)
  error n e he := hE e (h.error n e he)

/-- A computation that always succeeds shows nothing. -/
theorem of_ok {x : InferM α} (h : ∀ n, ∃ a, (x n).result = .ok a) : x.Judges True E where
  ok _ _ _ := trivial
  error n e he := by
    obtain ⟨a, ha⟩ := h n
    rw [ha] at he
    cases he

theorem pure (a : α) : (Pure.pure a : InferM α).Judges True E := .of_ok fun _ => ⟨a, rfl⟩

theorem fresh : InferM.fresh.Judges True E := .of_ok fun n => ⟨TyVar.fresh n, rfl⟩

theorem note (e : Event) : (InferM.note e).Judges True E := .of_ok fun _ => ⟨(), rfl⟩

theorem instantiate (σ : Scheme) : (InferM.instantiate σ).Judges True E :=
  .of_ok fun _ => ⟨_, (yields_instantiate.2 ⟨rfl, rfl⟩).1⟩

theorem fail {e : TypeError} (he : E e) : (InferM.fail e : InferM α).Judges P E where
  ok _ _ h := by cases h
  error _ _ h := by
    cases h
    exact he

theorem unify (t u : Ty) : (InferM.unify t u).Judges True TypeError.Unsolvable where
  ok _ _ _ := trivial
  error _ _ h := unify_error_unsolvable h

/-- Two computations in a row succeed only if both do, and fail as one of them does. -/
theorem bind {x : InferM α} {f : α → InferM β} (hx : x.Judges P E) (hf : ∀ a, (f a).Judges Q E) :
    (x >>= f).Judges (P ∧ Q) E where
  ok n b hb := by
    rw [result_bind] at hb
    cases hr : (x n).result with
    | error e => simp [hr, Except.bind] at hb
    | ok a =>
      rw [hr] at hb
      exact ⟨hx.ok n a hr, (hf a).ok _ b hb⟩
  error n e he := by
    rw [result_bind] at he
    cases hr : (x n).result with
    | error e' =>
      obtain rfl : e' = e := by simpa [hr, Except.bind] using he
      exact hx.error n e' hr
    | ok a =>
      rw [hr] at he
      exact (hf a).error _ e he

end Judges

end InferM

/-! ### Inference -/

/-- An error shows a name that is missing, or types that cannot be equal. -/
def TypeError.Shows (env : Env) (names : List String) : TypeError → Prop
  | .unboundVariable x => x ∈ names ∧ x ∉ env
  | .infinite a t => Unsolvable (.infinite a t)
  | .mismatch t u => Unsolvable (.mismatch t u)

namespace TypeError

variable {env env' : Env} {names names' : List String} {e : TypeError}

theorem Unsolvable.shows (h : e.Unsolvable) : e.Shows env names := by
  cases e with
  | unboundVariable x => exact h.elim
  | infinite a t => exact h
  | mismatch t u => exact h

/-- A name that is missing somewhere is missing elsewhere too, if it can get there. -/
theorem Shows.mono (h : e.Shows env names)
    (hsub : ∀ x ∈ names, x ∉ env → x ∈ names' ∧ x ∉ env') : e.Shows env' names' := by
  cases e with
  | unboundVariable x => exact hsub x h.1 h.2
  | infinite a t => exact h
  | mismatch t u => exact h

end TypeError

theorem Env.mem_subst {env : Env} {s : Subst} {x : String} : x ∈ env.subst s ↔ x ∈ env :=
  Std.ExtTreeMap.mem_map

theorem Env.mem_insert {env : Env} {σ : Scheme} {x y : String} :
    y ∈ env.insert x σ ↔ y = x ∨ y ∈ env := by
  rw [Std.ExtTreeMap.mem_insert, Std.LawfulEqCmp.compare_eq_iff_eq, eq_comm]

open InferM in
/-- **The outcome of inference shows which names are bound.** -/
theorem infer_judges (policy : LetPolicy) (env : Env) (e : Expr) :
    (infer policy env e).Judges (∀ x ∈ e.freeVars, x ∈ env) (·.Shows env e.freeVars) := by
  induction e generalizing env with
  | var x =>
    unfold infer
    split
    · rename_i hx
      exact .fail ⟨by simp [Expr.freeVars], by simpa using hx⟩
    · rename_i σ hx
      have hmem : x ∈ env := Std.ExtTreeMap.mem_iff_isSome_getElem?.2 (by simp [hx])
      refine (Judges.bind (.instantiate σ) fun _ => .pure _).mono (fun _ => ?_) fun _ he => he
      simpa [Expr.freeVars] using hmem
  | lit l =>
    refine (Judges.pure _).mono (fun _ => ?_) fun _ he => he
    simp [Expr.freeVars]
  | app f a ihf iha =>
    have hf : (infer policy env f).Judges (∀ x ∈ f.freeVars, x ∈ env)
        (·.Shows env (Expr.app f a).freeVars) :=
      (ihf env).mono id fun _ he => he.mono fun x hx hfree =>
        ⟨Expr.mem_freeVars_app.2 (.inl hx), hfree⟩
    have ha : ∀ s, (infer policy (env.subst s) a).Judges (∀ x ∈ a.freeVars, x ∈ env)
        (·.Shows env (Expr.app f a).freeVars) := fun s =>
      (iha (env.subst s)).mono (fun h x hx => Env.mem_subst.1 (h x hx)) fun _ he =>
        he.mono fun x hx hfree => ⟨Expr.mem_freeVars_app.2 (.inr hx), mt Env.mem_subst.2 hfree⟩
    have hunify : ∀ t u, (InferM.unify t u).Judges True (·.Shows env (Expr.app f a).freeVars) :=
      fun t u => (Judges.unify t u).mono id fun _ he => he.shows
    refine (hf.bind fun _ => (ha _).bind fun _ => Judges.fresh.bind fun _ =>
      (hunify _ _).bind fun _ => Judges.pure _).mono (fun h x hx => ?_) fun _ he => he
    exact (Expr.mem_freeVars_app.1 hx).elim (h.1 x) (h.2.1 x)
  | abs x e ih =>
    have hbody : ∀ σ, (infer policy (env.insert x σ) e).Judges
        (∀ y ∈ (Expr.abs x e).freeVars, y ∈ env) (·.Shows env (Expr.abs x e).freeVars) := by
      intro σ
      refine (ih (env.insert x σ)).mono (fun h y hy => ?_) fun _ he => he.mono fun y hy hfree => ?_
      · obtain ⟨hy, hyx⟩ := Expr.mem_freeVars_abs.1 hy
        exact (Env.mem_insert.1 (h y hy)).resolve_left hyx
      · rw [Env.mem_insert, not_or] at hfree
        exact ⟨Expr.mem_freeVars_abs.2 ⟨hy, hfree.1⟩, hfree.2⟩
    exact (Judges.fresh.bind fun _ => (hbody _).bind fun _ => Judges.pure _).mono
      (fun h => h.2.1) fun _ he => he
  | letIn x b e ihb ihe =>
    have hbound : (infer policy env b).Judges (∀ y ∈ b.freeVars, y ∈ env)
        (·.Shows env (Expr.letIn x b e).freeVars) :=
      (ihb env).mono id fun _ he => he.mono fun y hy hfree =>
        ⟨Expr.mem_freeVars_letIn.2 (.inl hy), hfree⟩
    have hbody : ∀ s σ, (infer policy ((env.subst s).insert x σ) e).Judges
        (∀ y ∈ e.freeVars, y ≠ x → y ∈ env) (·.Shows env (Expr.letIn x b e).freeVars) := by
      intro s σ
      refine (ihe _).mono (fun h y hy hyx => ?_) fun _ he => he.mono fun y hy hfree => ?_
      · exact Env.mem_subst.1 ((Env.mem_insert.1 (h y hy)).resolve_left hyx)
      · rw [Env.mem_insert, not_or, Env.mem_subst] at hfree
        exact ⟨Expr.mem_freeVars_letIn.2 (.inr ⟨hy, hfree.1⟩), hfree.2⟩
    refine (hbound.bind fun _ => (Judges.note _).bind fun _ => (hbody _ _).bind fun _ =>
      Judges.pure _).mono (fun h y hy => ?_) fun _ he => he
    exact (Expr.mem_freeVars_letIn.1 hy).elim (h.1 y) fun hy => h.2.2.1 y hy.1 hy.2

/-- **Type errors carry evidence.** A name that inference reports as unbound is free in the expression
and not bound in the environment. A type that it reports as infinite is a function type in which the
variable occurs. Two types that do not match are no variables and start differently. So no
substitution makes the type equal to the variable, or the two types to each other. And if inference
succeeds, all free names of the expression are bound. -/
theorem infer_error_evident (policy : LetPolicy) (env : Env) (e : Expr) (n : Nat) :
    (∀ x, (infer policy env e n).result = .error (.unboundVariable x) →
      x ∈ e.freeVars ∧ x ∉ env) ∧
    (∀ a t, (infer policy env e n).result = .error (.infinite a t) →
      t.isFn = true ∧ t.occurs a = true ∧ ∀ q : Subst, (Ty.var a).subst q ≠ t.subst q) ∧
    (∀ t u, (infer policy env e n).result = .error (.mismatch t u) →
      t.isVar = false ∧ u.isVar = false ∧ t.ctorIdx ≠ u.ctorIdx ∧
      ∀ q : Subst, t.subst q ≠ u.subst q) ∧
    (∀ r, (infer policy env e n).result = .ok r → ∀ x ∈ e.freeVars, x ∈ env) := by
  have h := infer_judges policy env e
  refine ⟨fun x hx => h.error n _ hx, fun a t ht => ?_, fun t u htu => ?_, h.ok n⟩
  · obtain ⟨hfn, hocc⟩ : t.isFn = true ∧ t.occurs a = true := h.error n _ ht
    exact ⟨hfn, hocc, Ty.subst_ne_of_occurs hfn hocc⟩
  · have hclash : t.clash u = true := h.error n _ htu
    obtain ⟨ht, hu, hidx⟩ := Ty.clash_iff.1 hclash
    exact ⟨ht, hu, hidx, Ty.subst_ne_of_clash hclash⟩

/-- In `(\y -> y) y` the last `y` has to be bound; `\x -> x x` needs an infinite type; and in
`let f = \x -> x true in f false` a function type meets `Bool`. -/
theorem infer_error_evident_lets :
    let env : Env := .ofList [("y", .mono .int)]
    let hidden : Expr := .app (.abs "y" (.var "y")) (.var "y")
    let twice : Expr := .abs "x" (.app (.var "x") (.var "x"))
    let arrow : Ty := .fn (.var "u0") (.var "u1")
    let lets : Expr := .letIn "f" (.abs "x" (.app (.var "x") (.lit (.bool true))))
      (.app (.var "f") (.lit (.bool false)))
    let param : Ty := .fn .bool (.var "u2")
    ((infer .generalize ∅ hidden 0).result = .error (.unboundVariable "y") ∧
      "y" ∈ hidden.freeVars ∧ "y" ∉ (∅ : Env)) ∧
    ((infer .generalize ∅ twice 0).result = .error (.infinite "u0" arrow) ∧
      arrow.isFn = true ∧ arrow.occurs "u0" = true ∧
      ∀ q : Subst, (Ty.var "u0").subst q ≠ arrow.subst q) ∧
    ((infer .generalize ∅ lets 0).result = .error (.mismatch param .bool) ∧
      param.isVar = false ∧ Ty.bool.isVar = false ∧ param.ctorIdx ≠ Ty.bool.ctorIdx ∧
      ∀ q : Subst, param.subst q ≠ Ty.bool.subst q) ∧
    (∃ r, (infer .generalize env hidden 0).result = .ok r) ∧ ∀ x ∈ hidden.freeVars, x ∈ env := by
  intro env hidden twice arrow lets param
  have hhidden : (infer .generalize ∅ hidden 0).result = .error (.unboundVariable "y") := by cbv
  have htwice : (infer .generalize ∅ twice 0).result = .error (.infinite "u0" arrow) := by cbv
  have hlets : (infer .generalize ∅ (.letIn "f" (.abs "x" (.app (.var "x") (.lit (.bool true))))
      (.app (.var "f") (.lit (.bool false)))) 0).result =
        .error (.mismatch (.fn .bool (.var "u2")) .bool) := by cbv
  have hok : (infer .generalize env hidden 0).result =
      .ok (.ofList [("u0", .int), ("u1", .int)], .int) := by cbv
  exact ⟨⟨hhidden, (infer_error_evident .generalize ∅ hidden 0).1 "y" hhidden⟩,
    ⟨htwice, (infer_error_evident .generalize ∅ twice 0).2.1 "u0" arrow htwice⟩,
    ⟨hlets, (infer_error_evident .generalize ∅ lets 0).2.2.1 param .bool hlets⟩,
    ⟨_, hok⟩, (infer_error_evident .generalize env hidden 0).2.2.2 _ hok⟩

end LetPoly
