import LetPoly.Infer
import LetPoly.Proofs.Instance

/-!
# Successful runs of inference

`Infers policy Γ n e s t m` says that inferring `e` in `Γ`, with the counter at `n`, gives the
substitution `s` and the type `t` and leaves the counter at `m`. It has one rule for each form of
expression, and is the same as running `infer` (`infer_yields_iff`), so what holds of all successful
runs is proved by induction over these rules.

The variables that a run brings in are those it draws, `TyVar.drawn n m`. All others that it binds or
returns are free in the environment. As long as the environment does not know the drawn ones yet, the
substitution is solved: no variable that it binds is left anywhere in what the run returns.
-/

namespace LetPoly

namespace InferM

variable {α β : Type} {n m : Nat}

theorem result_bind (x : InferM α) (f : α → InferM β) (n : Nat) :
    ((x >>= f) n).result = (x n).result.bind fun a => (f a (x n).next).result := by
  simp only [Bind.bind]
  cases (x n).result <;> rfl

/-- A computation started at `n` succeeds with a value, and leaves the counter at `m`. -/
def Yields (x : InferM α) (n : Nat) (a : α) (m : Nat) : Prop :=
  (x n).result = .ok a ∧ (x n).next = m

@[simp] theorem yields_pure {a b : α} : (pure a : InferM α).Yields n b m ↔ a = b ∧ n = m := by
  show Except.ok a = Except.ok b ∧ n = m ↔ _
  rw [Except.ok.injEq]

theorem yields_bind {x : InferM α} {f : α → InferM β} {b : β} :
    (x >>= f).Yields n b m ↔ ∃ a k, x.Yields n a k ∧ (f a).Yields k b m := by
  simp only [Yields, bind]
  cases h : (x n).result with
  | error e => simp
  | ok a =>
    constructor
    · exact fun hf => ⟨a, _, ⟨rfl, rfl⟩, hf⟩
    · rintro ⟨_, _, ⟨ha, rfl⟩, hf⟩
      obtain rfl := Except.ok.inj ha
      exact hf

@[simp] theorem yields_fail {e : TypeError} {a : α} : ¬ (fail e : InferM α).Yields n a m := by
  rintro ⟨h, -⟩
  cases h

@[simp] theorem yields_note {e : Event} {u : Unit} : (note e).Yields n u m ↔ n = m := by
  simp [Yields, note]

@[simp] theorem yields_fresh {a : TyVar} : fresh.Yields n a m ↔ TyVar.fresh n = a ∧ n + 1 = m := by
  simp [Yields, fresh]

@[simp] theorem yields_unify {t u : Ty} {s : Subst} :
    (InferM.unify t u).Yields n s m ↔ (LetPoly.unify t u).result = .ok s ∧ n = m := Iff.rfl

theorem Yields.next_bind {x : InferM α} {a : α} (h : x.Yields n a m) (f : α → InferM β) :
    ((x >>= f) n).next = (f a m).next := by
  obtain ⟨hok, rfl⟩ := h
  simp only [bind, hok]

/-! ### The counter, also in runs that fail -/

/-- The counter never goes back. -/
def Climbs (x : InferM α) : Prop := ∀ n, n ≤ (x n).next

namespace Climbs

theorem pure (a : α) : (Pure.pure a : InferM α).Climbs := Nat.le_refl

theorem fail (e : TypeError) : (InferM.fail e : InferM α).Climbs := Nat.le_refl

theorem note (e : Event) : (InferM.note e).Climbs := Nat.le_refl

theorem fresh : InferM.fresh.Climbs := Nat.le_succ

theorem unify (t u : Ty) : (InferM.unify t u).Climbs := Nat.le_refl

/-- Whatever follows a computation, the counter gets at least as far as in the computation alone. -/
theorem next_le_bind {f : α → InferM β} (hf : ∀ a, (f a).Climbs) (x : InferM α) (n : Nat) :
    (x n).next ≤ ((x >>= f) n).next := by
  simp only [Bind.bind]
  cases h : (x n).result with
  | error e => exact Nat.le_refl _
  | ok a => exact hf a _

theorem bind {x : InferM α} {f : α → InferM β} (hx : x.Climbs) (hf : ∀ a, (f a).Climbs) :
    (x >>= f).Climbs :=
  fun n => Nat.le_trans (hx n) (next_le_bind hf x n)

theorem freshFor (vars : List TyVar) : (InferM.freshFor vars).Climbs := by
  induction vars with
  | nil => exact .pure _
  | cons a vars ih => exact .bind .fresh fun _ => .bind ih fun _ => .pure _

theorem instantiate (σ : Scheme) : (InferM.instantiate σ).Climbs := by
  unfold InferM.instantiate
  split
  · exact .pure _
  · exact .bind (.freshFor _) fun _ => .bind (.note _) fun _ => .pure _

end Climbs

end InferM

open InferM in
theorem infer_climbs (policy : LetPolicy) (Γ : Env) (e : Expr) : (infer policy Γ e).Climbs := by
  induction e generalizing Γ with
  | var x =>
    unfold infer
    split
    · exact .fail _
    · exact .bind (.instantiate _) fun _ => .pure _
  | lit l => exact .pure _
  | app f a ihf iha =>
    exact .bind (ihf Γ) fun _ => .bind (iha _) fun _ => .bind .fresh fun _ =>
      .bind (.unify _ _) fun _ => .pure _
  | abs x e ih => exact .bind .fresh fun _ => .bind (ih _) fun _ => .pure _
  | letIn x b e ihb ihe =>
    exact .bind (ihb Γ) fun _ => .bind (.note _) fun _ => .bind (ihe _) fun _ => .pure _

/-! ### Fresh variables -/

/-- The fresh variables from `n` on up to `m`. -/
def TyVar.drawn (n m : Nat) : List TyVar := (List.range' n (m - n)).map TyVar.fresh

@[simp] theorem TyVar.mem_drawn {n m : Nat} {a : TyVar} :
    a ∈ TyVar.drawn n m ↔ ∃ k, (n ≤ k ∧ k < m) ∧ TyVar.fresh k = a := by
  simp only [drawn, List.mem_map, List.mem_range'_1]
  constructor
  · rintro ⟨k, hk, rfl⟩
    exact ⟨k, by omega, rfl⟩
  · rintro ⟨k, hk, rfl⟩
    exact ⟨k, by omega, rfl⟩

theorem TyVar.fresh_mem_drawn {n m k : Nat} : TyVar.fresh k ∈ TyVar.drawn n m ↔ n ≤ k ∧ k < m := by
  simp [TyVar.fresh_inj]

/-- A wider range draws more. -/
theorem TyVar.drawn_mono {n m n' m' : Nat} (hn : n' ≤ n) (hm : m ≤ m') {a : TyVar}
    (ha : a ∈ TyVar.drawn n m) : a ∈ TyVar.drawn n' m' := by
  obtain ⟨k, hk, rfl⟩ := TyVar.mem_drawn.1 ha
  exact TyVar.fresh_mem_drawn.2 (by omega)

/-- What is drawn later is not drawn before. -/
theorem TyVar.notMem_drawn {n m k : Nat} {a : TyVar} (ha : a ∈ TyVar.drawn n m) :
    a ∉ TyVar.drawn m k := by
  obtain ⟨i, hi, rfl⟩ := TyVar.mem_drawn.1 ha
  intro h
  have := TyVar.fresh_mem_drawn.1 h
  omega

/-- The fresh variables, from `n` on, for the quantified ones of a scheme. -/
def Scheme.renewal (σ : Scheme) (n : Nat) : Subst :=
  .ofList ((σ.vars.zipIdx n).map fun (a, k) => (a, .var (TyVar.fresh k)))

theorem Scheme.mem_renewal {σ : Scheme} {n : Nat} {a : TyVar} :
    a ∈ σ.renewal n ↔ a ∈ σ.vars := by
  have : ((σ.vars.zipIdx n).map fun (a, k) => (a, Ty.var (TyVar.fresh k))).map Prod.fst = σ.vars := by
    rw [List.map_map]
    exact List.zipIdx_map_fst n σ.vars
  rw [renewal, Subst.mem_ofList, this]

/-- Each quantified variable gets the fresh one of a place where it is listed. -/
theorem Scheme.exists_renewal (σ : Scheme) (n : Nat) {a : TyVar} (ha : a ∈ σ.vars) :
    ∃ i, σ.vars[i]? = some a ∧ (σ.renewal n).assignment a = .var (TyVar.fresh (n + i)) := by
  have hsome := Std.ExtTreeMap.mem_iff_isSome_getElem?.1 (mem_renewal.2 ha : a ∈ σ.renewal n)
  obtain ⟨t, ht⟩ := Option.isSome_iff_exists.1 hsome
  obtain ⟨⟨b, k⟩, hmem, hb⟩ := List.mem_map.1 (Subst.mem_of_getElem?_ofList ht)
  obtain ⟨rfl, rfl⟩ := Prod.mk.inj hb
  obtain ⟨i, hi⟩ := List.mem_iff_getElem?.1 hmem
  rw [List.getElem?_zipIdx] at hi
  cases hσ : σ.vars[i]? with
  | none => simp [hσ] at hi
  | some c =>
    simp only [hσ, Option.map_some, Option.some.injEq, Prod.mk.injEq] at hi
    obtain ⟨rfl, rfl⟩ := hi
    exact ⟨i, hσ, by rw [Subst.assignment_eq, ht, Option.getD_some]⟩

theorem Scheme.mem_drawn_of_renewal (σ : Scheme) {n : Nat} {a b : TyVar} (ha : a ∈ σ.vars)
    (h : (σ.renewal n).assignment a = .var b) : b ∈ TyVar.drawn n (n + σ.vars.length) := by
  obtain ⟨i, hi, hai⟩ := σ.exists_renewal n ha
  obtain rfl := Ty.var.inj (hai.symm.trans h)
  have hlt := (List.getElem?_eq_some_iff.1 hi).1
  exact TyVar.fresh_mem_drawn.2 (by omega)

theorem Scheme.renewal_inj (σ : Scheme) {n : Nat} {a b : TyVar} (ha : a ∈ σ.vars) (hb : b ∈ σ.vars)
    (h : (σ.renewal n).assignment a = (σ.renewal n).assignment b) : a = b := by
  obtain ⟨i, hi, hai⟩ := σ.exists_renewal n ha
  obtain ⟨j, hj, hbj⟩ := σ.exists_renewal n hb
  rw [hai, hbj, Ty.var.injEq, TyVar.fresh_inj] at h
  obtain rfl : i = j := by omega
  exact Option.some.inj (hi.symm.trans hj)

namespace InferM

variable {n m : Nat}

theorem yields_freshFor {vars : List TyVar} {pairs : List (TyVar × Ty)} :
    (freshFor vars).Yields n pairs m ↔
      (vars.zipIdx n).map (fun (a, k) => (a, .var (TyVar.fresh k))) = pairs ∧
        n + vars.length = m := by
  induction vars generalizing n m pairs with
  | nil => simp [freshFor]
  | cons a vars ih =>
    simp only [freshFor, yields_bind, yields_fresh, ih, yields_pure, List.zipIdx_cons, List.map_cons,
      List.length_cons]
    constructor
    · rintro ⟨_, _, ⟨rfl, rfl⟩, _, _, ⟨rfl, rfl⟩, rfl, rfl⟩
      exact ⟨rfl, by omega⟩
    · rintro ⟨rfl, rfl⟩
      exact ⟨_, _, ⟨rfl, rfl⟩, _, _, ⟨rfl, rfl⟩, rfl, by omega⟩

theorem yields_instantiate {σ : Scheme} {t : Ty} :
    (instantiate σ).Yields n t m ↔ σ.body.subst (σ.renewal n) = t ∧ n + σ.vars.length = m := by
  unfold instantiate
  split
  · rename_i hmono
    have hvars : σ.vars = [] := List.isEmpty_iff.1 hmono
    simp [Scheme.renewal, hvars, Subst.ofList]
  · simp only [yields_bind, yields_freshFor, yields_note, yields_pure]
    constructor
    · rintro ⟨_, _, ⟨rfl, rfl⟩, _, _, rfl, rfl, rfl⟩
      exact ⟨rfl, rfl⟩
    · rintro ⟨rfl, rfl⟩
      exact ⟨_, _, ⟨rfl, rfl⟩, (), _, rfl, rfl, rfl⟩

end InferM

/-! ### Rules -/

/-- Successful runs of inference: environment, counter, expression, and then what is found and where
the counter stands. -/
inductive Infers (policy : LetPolicy) : Env → Nat → Expr → Subst → Ty → Nat → Prop where
  | var {Γ : Env} {n : Nat} {x : String} {σ : Scheme} :
    Γ[x]? = some σ →
    Infers policy Γ n (.var x) ∅ (σ.body.subst (σ.renewal n)) (n + σ.vars.length)
  | lit {Γ : Env} {n : Nat} (l : Literal) : Infers policy Γ n (.lit l) ∅ l.ty n
  | app {Γ : Env} {n m₀ m₁ : Nat} {f a : Expr} {s₀ s₁ s₂ : Subst} {tf ta : Ty} :
    Infers policy Γ n f s₀ tf m₀ → Infers policy (Γ.subst s₀) m₀ a s₁ ta m₁ →
    (unify (tf.subst s₁) (.fn ta (.var (TyVar.fresh m₁)))).result = .ok s₂ →
    Infers policy Γ n (.app f a) (s₂.compose (s₁.compose s₀))
      ((Ty.var (TyVar.fresh m₁)).subst s₂) (m₁ + 1)
  | abs {Γ : Env} {n m : Nat} {x : String} {e : Expr} {s : Subst} {te : Ty} :
    Infers policy (Γ.insert x (.mono (.var (TyVar.fresh n)))) (n + 1) e s te m →
    Infers policy Γ n (.abs x e) s (.fn ((Ty.var (TyVar.fresh n)).subst s) te) m
  | letIn {Γ : Env} {n m₁ m : Nat} {x : String} {b e : Expr} {s₁ s₂ : Subst} {tb te : Ty} :
    Infers policy Γ n b s₁ tb m₁ →
    Infers policy ((Γ.subst s₁).insert x (policy.scheme (Γ.subst s₁) (tb.subst s₁))) m₁ e s₂ te m →
    Infers policy Γ n (.letIn x b e) (s₂.compose s₁) te m

open InferM in
theorem infer_yields_iff {policy : LetPolicy} {Γ : Env} {n m : Nat} {e : Expr} {s : Subst}
    {t : Ty} : (infer policy Γ e).Yields n (s, t) m ↔ Infers policy Γ n e s t m := by
  constructor
  · intro h
    induction e generalizing Γ n m s t with
    | var x =>
      unfold infer at h
      split at h
      · exact absurd h yields_fail
      · rename_i σ hx
        simp only [yields_bind, yields_instantiate, yields_pure] at h
        obtain ⟨_, _, ⟨rfl, rfl⟩, h, rfl⟩ := h
        obtain ⟨rfl, rfl⟩ := Prod.mk.inj h
        exact .var hx
    | lit l =>
      simp only [infer, yields_pure, Prod.mk.injEq] at h
      obtain ⟨⟨rfl, rfl⟩, rfl⟩ := h
      exact .lit l
    | app f a ihf iha =>
      simp only [infer, yields_bind, yields_fresh, yields_unify, yields_pure] at h
      obtain ⟨⟨s₀, tf⟩, m₀, hf, ⟨s₁, ta⟩, m₁, ha, _, _, ⟨rfl, rfl⟩, s₂, _, ⟨hu, rfl⟩, h, rfl⟩ := h
      obtain ⟨rfl, rfl⟩ := Prod.mk.inj h
      exact .app (ihf hf) (iha ha) hu
    | abs x e ih =>
      simp only [infer, yields_bind, yields_fresh, yields_pure] at h
      obtain ⟨_, _, ⟨rfl, rfl⟩, ⟨s, te⟩, m, he, h, rfl⟩ := h
      obtain ⟨rfl, rfl⟩ := Prod.mk.inj h
      exact .abs (ih he)
    | letIn x b e ihb ihe =>
      simp only [infer, yields_bind, yields_note, yields_pure] at h
      obtain ⟨⟨s₁, tb⟩, m₁, hb, _, _, rfl, ⟨s₂, te⟩, m, he, h, rfl⟩ := h
      obtain ⟨rfl, rfl⟩ := Prod.mk.inj h
      exact .letIn (ihb hb) (ihe he)
  · intro h
    induction h with
    | var hx =>
      unfold infer
      simp only [hx, yields_bind, yields_instantiate, yields_pure]
      exact ⟨_, _, ⟨rfl, rfl⟩, rfl, rfl⟩
    | lit l => simp [infer]
    | app _ _ hu ihf iha =>
      simp only [infer, yields_bind, yields_fresh, yields_unify, yields_pure]
      exact ⟨_, _, ihf, _, _, iha, _, _, ⟨rfl, rfl⟩, _, _, ⟨hu, rfl⟩, rfl, rfl⟩
    | abs _ ih =>
      simp only [infer, yields_bind, yields_fresh, yields_pure]
      exact ⟨_, _, ⟨rfl, rfl⟩, _, _, ih, rfl, rfl⟩
    | letIn _ _ ihb ihe =>
      simp only [infer, yields_bind, yields_note, yields_pure]
      exact ⟨_, _, ihb, (), _, rfl, _, _, ihe, rfl, rfl⟩

end LetPoly
