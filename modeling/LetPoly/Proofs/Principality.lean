import LetPoly.Proofs.Soundness

/-!
# Inferred types are most general

If an expression has a type at all, `infer` succeeds, and the type that it finds has all others as
instances (`HasType.inferred`). The induction is over the derivation of the given type. It compares
the environment of the derivation with the one that inference works in, under an assignment `θ` of
the latter's free variables. Each step of the run extends `θ` to the variables that it draws. So the
assignments of two runs in a row compose (`Subst.Solved.assign_compose`), and the one at hand is
always a unifier of what there is to unify.
-/

namespace LetPoly

/-! ### How far the counter gets -/

section Counter

open InferM

variable {policy : LetPolicy} {Γ : Env} {n m₀ m₁ : Nat} {s₀ s₁ : Subst} {t u : Ty}

theorem next_function_le (policy : LetPolicy) (Γ : Env) (f a : Expr) (n : Nat) :
    (infer policy Γ f n).next ≤ (infer policy Γ (.app f a) n).next :=
  Climbs.next_le_bind (fun _ => .bind (infer_climbs _ _ _) fun _ => .bind .fresh fun _ =>
    .bind (.unify _ _) fun _ => .pure _) _ n

theorem next_argument_le {f : Expr} (hf : Infers policy Γ n f s₀ t m₀) (a : Expr) :
    (infer policy (Γ.subst s₀) a m₀).next ≤ (infer policy Γ (.app f a) n).next := by
  rw [infer, (infer_yields_iff.2 hf).next_bind]
  exact Climbs.next_le_bind (fun _ => .bind .fresh fun _ => .bind (.unify _ _) fun _ => .pure _) _ m₀

theorem next_result_le {f a : Expr} (hf : Infers policy Γ n f s₀ t m₀)
    (ha : Infers policy (Γ.subst s₀) m₀ a s₁ u m₁) :
    m₁ + 1 ≤ (infer policy Γ (.app f a) n).next := by
  rw [infer, (infer_yields_iff.2 hf).next_bind, (infer_yields_iff.2 ha).next_bind]
  exact Climbs.next_le_bind (fun _ => .bind (.unify _ _) fun _ => .pure _) fresh m₁

theorem next_abs_body_le (policy : LetPolicy) (Γ : Env) (x : String) (e : Expr) (n : Nat) :
    (infer policy (Γ.insert x (.mono (.var (TyVar.fresh n)))) e (n + 1)).next ≤
      (infer policy Γ (.abs x e) n).next :=
  Climbs.next_le_bind (fun _ => .pure _) _ (n + 1)

theorem next_bound_le (policy : LetPolicy) (Γ : Env) (x : String) (b e : Expr) (n : Nat) :
    (infer policy Γ b n).next ≤ (infer policy Γ (.letIn x b e) n).next :=
  Climbs.next_le_bind (fun _ => .bind (.note _) fun _ => .bind (infer_climbs _ _ _) fun _ => .pure _) _ n

theorem next_let_body_le {b : Expr} (hb : Infers policy Γ n b s₁ t m₁) (x : String) (e : Expr) :
    (infer policy ((Γ.subst s₁).insert x (policy.scheme (Γ.subst s₁) (t.subst s₁))) e m₁).next ≤
      (infer policy Γ (.letIn x b e) n).next := by
  rw [infer, (infer_yields_iff.2 hb).next_bind]
  exact Climbs.next_le_bind (fun _ => .pure _) _ m₁

end Counter

/-! ### Extending assignments -/

theorem Assignment.update_fresh_of_notMem {θ : Assignment} {n : Nat} {t : Ty} {a : TyVar}
    (ha : a ∉ TyVar.drawn n (n + 1)) : Function.update θ (TyVar.fresh n) t a = θ a := by
  refine Function.update_of_ne ?_ t θ
  rintro rfl
  exact ha (TyVar.fresh_mem_drawn.2 (by omega))

/-- What a run makes of a variable that it does not draw is not drawn later. -/
theorem Subst.Solved.notMem_drawn {s : Subst} {Γ : Env} {n k m : Nat} (hs : s.Solved (Γ.scope n k))
    (hΓ : Γ.Unknown n m) (hnk : n ≤ k) {a b : TyVar} (ha : a ∉ TyVar.drawn k m)
    (hb : b ∈ (s.assignment a).freeVars) : b ∉ TyVar.drawn k m := by
  rcases Subst.mem_freeVars_assignment hb with rfl | ⟨u, hu, hb⟩
  · exact ha
  · exact hΓ.notMem_drawn hnk (hs.mem_of_mem a u hu b hb)

/-- If each of two runs in a row extends an assignment to what it draws, then both together do. -/
theorem Subst.Solved.assign_compose {r s : Subst} {Γ : Env} {n k m : Nat} {θ η ζ : Assignment}
    (hr : r.Solved (Γ.scope n k)) (hΓ : Γ.Unknown n m) (hnk : n ≤ k) (hkm : k ≤ m)
    (hη : ∀ a ∉ TyVar.drawn n k, (r.assignment a).assign η = θ a)
    (hζ : ∀ a ∉ TyVar.drawn k m, (s.assignment a).assign ζ = η a) :
    ∀ a ∉ TyVar.drawn n m, ((s.compose r).assignment a).assign ζ = θ a := by
  intro a ha
  have ha₁ : a ∉ TyVar.drawn n k := mt (TyVar.drawn_mono (Nat.le_refl n) hkm) ha
  have ha₂ : a ∉ TyVar.drawn k m := mt (TyVar.drawn_mono hnk (Nat.le_refl m)) ha
  calc ((s.compose r).assignment a).assign ζ
      = (r.assignment a).assign fun b => (s.assignment b).assign ζ := by
        rw [Subst.assignment_compose, Ty.assign_assign]
    _ = (r.assignment a).assign η :=
        Ty.assign_congr fun b hb => hζ b (hr.notMem_drawn hΓ hnk ha₂ hb)
    _ = θ a := hη a ha₁

/-- The environment that a run leaves, under the extended assignment, is as general as the one it
started in. -/
theorem Env.Le.after_run {Δ Γ : Env} {n m M : Nat} {s : Subst} {θ η : Assignment}
    (hle : Env.Le .var Δ θ Γ) (hΓ : Γ.Ready n M) (hm : m ≤ M) (hs : s.Solved (Γ.scope n m))
    (hη : ∀ a ∉ TyVar.drawn n m, (s.assignment a).assign η = θ a) :
    Env.Le .var Δ η (Γ.subst s) := by
  have hready := hΓ.mono (Nat.le_refl n) hm
  refine .subst_right (hready.noCapture hs) (hle.congr (fun _ _ => rfl) fun a ha => ?_)
  exact (hη a (hready.unknown a ha)).symm

/-- The scheme that a `let` gets from a more general type in a more general environment is more
general. -/
theorem LetPolicy.Binds.le_scheme {policy : LetPolicy} {Δ Γ : Env} {t : Ty} {σ : Scheme}
    {θ : Assignment} (hσ : policy.Binds Δ (t.assign θ) σ) (hle : Env.Le .var Δ θ Γ) :
    Scheme.Le .var σ θ (policy.scheme Γ t) := by
  cases policy with
  | monomorphic =>
    obtain rfl : σ = .mono (t.assign θ) := hσ
    simp [Scheme.Le, scheme]
  | generalize =>
    obtain ⟨hbody, hvars⟩ := hσ
    rintro u ⟨r, rfl⟩
    refine ⟨fun a => (θ a).assign (Assignment.override .var σ.vars r), ?_⟩
    rw [hbody, Ty.assign_assign, scheme, Env.body_generalize]
    refine Ty.assign_congr fun a ha => ?_
    by_cases hΓ : a ∈ Γ.freeVars
    · -- what stands for a free variable is free in `Δ`, so it is not quantified there
      rw [Assignment.override_of_notMem (by simp [hΓ])]
      refine Ty.assign_eq_self fun b hb => Assignment.override_of_notMem fun hb' => ?_
      obtain ⟨c, hc, hbc⟩ := hle.freeVars hΓ hb
      obtain rfl : b = c := by simpa using hbc
      exact ((hvars b).1 hb').2 hc
    · rw [Assignment.override_of_mem (Env.mem_vars_generalize.2 ⟨ha, hΓ⟩)]

/-- An instance of a scheme is an instance of the type with fresh variables for the quantified
ones. -/
theorem Scheme.InstanceUnder.exists_extension {Γ : Env} {x : String} {σ : Scheme} {n : Nat}
    {θ : Assignment} {t : Ty} (ht : σ.InstanceUnder θ t) (hx : Γ[x]? = some σ)
    (hΓ : Γ.Unknown n (n + σ.vars.length)) :
    ∃ η : Assignment, (σ.body.subst (σ.renewal n)).assign η = t ∧
      ∀ a ∉ TyVar.drawn n (n + σ.vars.length), η a = θ a := by
  obtain ⟨r, rfl⟩ := ht
  let ν : Fin σ.vars.length → TyVar := fun i => TyVar.fresh (n + i)
  have hν : ν.Injective := fun i j h => Fin.ext (by have := TyVar.fresh_inj.1 h; omega)
  have hold : ∀ a ∉ TyVar.drawn n (n + σ.vars.length),
      Function.extend ν (fun i => r (σ.vars.get i)) θ a = θ a := by
    intro a ha
    refine Function.extend_apply' _ _ _ ?_
    rintro ⟨i, rfl⟩
    exact ha (TyVar.fresh_mem_drawn.2 (by omega))
  refine ⟨Function.extend ν (fun i => r (σ.vars.get i)) θ, ?_, hold⟩
  rw [Ty.subst_eq_assign, Ty.assign_assign]
  refine Ty.assign_congr fun a hbody => ?_
  by_cases ha : a ∈ σ.vars
  · obtain ⟨i, hi, hfresh⟩ := σ.exists_renewal n ha
    obtain ⟨hlt, hget⟩ := List.getElem?_eq_some_iff.1 hi
    rw [hfresh, Assignment.override_of_mem ha, ← hget]
    exact hν.extend_apply _ _ ⟨i, hlt⟩
  · rw [Subst.assignment_of_notMem (mt Scheme.mem_renewal.1 ha), Assignment.override_of_notMem ha]
    exact hold a (hΓ a (Env.mem_freeVars.2 ⟨x, σ, hx, Scheme.mem_freeVars.2 ⟨hbody, ha⟩⟩))

/-- What there is to unify at an application has a unifier: the assignment so far, with the type of
the result for its new variable. -/
theorem Infers.exists_unify_app {policy : LetPolicy} {Γ : Env} {n m₀ m₁ : Nat} {f a : Expr}
    {s₀ s₁ : Subst} {tf ta t u : Ty} {η₀ η₁ : Assignment} (hf : Infers policy Γ n f s₀ tf m₀)
    (ha : Infers policy (Γ.subst s₀) m₀ a s₁ ta m₁) (hΓ : Γ.Unknown n (m₁ + 1))
    (htf : tf.assign η₀ = .fn t u) (hta : ta.assign η₁ = t)
    (hη₁ : ∀ b ∉ TyVar.drawn m₀ m₁, (s₁.assignment b).assign η₁ = η₀ b) :
    ∃ s₂ ζ, (unify (tf.subst s₁) (.fn ta (.var (TyVar.fresh m₁)))).result = .ok s₂ ∧
      ((Ty.var (TyVar.fresh m₁)).subst s₂).assign ζ = u ∧
      ∀ b ∉ TyVar.drawn m₁ (m₁ + 1), (s₂.assignment b).assign ζ = η₁ b := by
  obtain ⟨hs₀, htf₀⟩ := hf.solved (hΓ.mono (Nat.le_refl n) (Nat.le_succ_of_le ha.le))
  have hΓ₀ := hΓ.later hf.le fun b hb => (hs₀.mem_freeVars_left hb).1
  obtain ⟨hs₁, hta₁⟩ := ha.solved (hΓ₀.mono (Nat.le_refl m₀) (Nat.le_succ m₁))
  let ζ : Assignment := Function.update η₁ (TyVar.fresh m₁) u
  have hζ : ∀ b ∉ TyVar.drawn m₁ (m₁ + 1), ζ b = η₁ b :=
    fun b hb => Assignment.update_fresh_of_notMem hb
  have hfun : (tf.subst s₁).assign ζ = .fn t u := by
    rw [← htf, Ty.subst_eq_assign, Ty.assign_assign]
    refine Ty.assign_congr fun b hb => ?_
    have hb₀ := hΓ.notMem_drawn hf.le (htf₀ b hb).1
    have hb₁ := mt (TyVar.drawn_mono ha.le (Nat.le_refl _)) hb₀
    rw [← hη₁ b (mt (TyVar.drawn_mono (Nat.le_refl _) (Nat.le_succ m₁)) hb₀)]
    exact Ty.assign_congr fun c hc => hζ c (hs₁.notMem_drawn hΓ₀ ha.le hb₁ hc)
  have harg : ta.assign ζ = t := by
    rw [← hta]
    exact Ty.assign_congr fun b hb => hζ b (hΓ₀.notMem_drawn ha.le (hta₁ b hb).1)
  have hres : (Ty.var (TyVar.fresh m₁)).assign ζ = u := Function.update_self _ _ _
  have hunifies : (tf.subst s₁).assign ζ = (Ty.fn ta (.var (TyVar.fresh m₁))).assign ζ := by
    rw [hfun, Ty.assign, harg, hres]
  obtain ⟨s₂, hu⟩ := exists_unify hunifies
  have hgen := ((unify_decides _ _).ok s₂ hu).general ζ hunifies
  refine ⟨s₂, ζ, hu, by rw [hgen, hres], fun b hb => ?_⟩
  exact (hgen (.var b)).trans (hζ b hb)

/-- **Completeness.** Let `e` have the type `t` in an environment that is no more general than `Γ`
under `θ`. Then inference in `Γ` succeeds, and some extension of `θ` to the drawn variables turns
what it finds into what was given. -/
theorem HasType.inferred {policy : LetPolicy} {Δ : Env} {e : Expr} {t : Ty}
    (h : HasType policy Δ e t) :
    ∀ {θ : Assignment} {Γ : Env} {n M : Nat}, Env.Le .var Δ θ Γ → Γ.Ready n M →
      (infer policy Γ e n).next ≤ M →
      ∃ s u m η, Infers policy Γ n e s u m ∧ u.assign η = t ∧
        ∀ a ∉ TyVar.drawn n m, (s.assignment a).assign η = θ a := by
  induction h with
  | @var Δ x σ t hx hinst =>
    intro θ Γ n M hle hΓ hM
    rcases hle x with ⟨hnone, -⟩ | ⟨σ₁, σ', hσ, hσ', hle⟩
    · rw [hx] at hnone
      cases hnone
    · rw [hx] at hσ
      obtain rfl := Option.some.inj hσ
      have hrun : Infers policy Γ n (.var x) _ _ _ := .var hσ'
      rw [(infer_yields_iff.2 hrun).2] at hM
      obtain ⟨η, hη, hold⟩ := (hle t (Scheme.instanceUnder_var.2 hinst)).exists_extension hσ'
        (hΓ.unknown.mono (Nat.le_refl n) hM)
      exact ⟨_, _, _, η, hrun, hη, by simpa [Ty.assign] using hold⟩
  | lit l =>
    intro θ Γ n M _ _ _
    exact ⟨_, _, _, θ, .lit l, by cases l <;> rfl, by simp [Ty.assign]⟩
  | @app Δ f a t u _ _ ihf iha =>
    intro θ Γ n M hle hΓ hM
    obtain ⟨s₀, tf, m₀, η₀, hf, htf, hη₀⟩ :=
      ihf hle hΓ (Nat.le_trans (next_function_le policy Γ f a n) hM)
    have hargM := Nat.le_trans (next_argument_le hf a) hM
    have hm₀ := Nat.le_trans (infer_climbs _ _ _ _) hargM
    obtain ⟨hs₀, -⟩ := hf.solved (hΓ.unknown.mono (Nat.le_refl n) hm₀)
    obtain ⟨s₁, ta, m₁, η₁, ha, hta, hη₁⟩ :=
      iha (hle.after_run hΓ hm₀ hs₀ hη₀) (hΓ.subst hf.le hm₀ hs₀) hargM
    have hΓ₁ := hΓ.unknown.mono (Nat.le_refl n) (Nat.le_trans (next_result_le hf ha) hM)
    obtain ⟨s₂, ζ, hu, hres, hζ⟩ := hf.exists_unify_app ha hΓ₁ htf hta hη₁
    have hΓ' := hΓ₁.mono (Nat.le_refl n) (Nat.le_succ m₁)
    obtain ⟨-, -, hs₁₀⟩ := hf.solved_compose ha hΓ'
    refine ⟨_, _, _, ζ, .app hf ha hu, hres, ?_⟩
    exact hs₁₀.assign_compose hΓ₁ (Nat.le_trans hf.le ha.le) (Nat.le_succ m₁)
      (hs₀.assign_compose hΓ' hf.le ha.le hη₀ hη₁) hζ
  | @abs Δ x e t u _ ih =>
    intro θ Γ n M hle hΓ hM
    have hbodyM := Nat.le_trans (next_abs_body_le policy Γ x e n) hM
    have hn := Nat.le_trans (infer_climbs _ _ _ _) hbodyM
    -- the parameter gets the type that it has in the derivation
    let ζ : Assignment := Function.update θ (TyVar.fresh n) t
    have hparam : ζ (TyVar.fresh n) = t := Function.update_self _ _ _
    have hζ : ∀ a ∉ TyVar.drawn n (n + 1), ζ a = θ a :=
      fun a ha => Assignment.update_fresh_of_notMem ha
    have hle' : Env.Le .var Δ ζ Γ := hle.congr (fun _ _ => rfl) fun a ha =>
      (hζ a (hΓ.unknown.mono (Nat.le_refl n) hn a ha)).symm
    have hscheme : Scheme.Le .var (.mono t) ζ (.mono (.var (TyVar.fresh n))) := by
      simp [Scheme.Le, Ty.assign, hparam]
    obtain ⟨s, te, m, η, he, hte, hη⟩ := ih (hle'.insert x hscheme) (hΓ.param hn x) hbodyM
    refine ⟨_, _, _, η, .abs he, ?_, fun a ha => ?_⟩
    · have hs : ((Ty.var (TyVar.fresh n)).subst s).assign η = t := by
        rw [← hparam]
        exact hη _ (mt TyVar.fresh_mem_drawn.1 (by omega))
      rw [Ty.assign, hs, hte]
    · rw [hη a (mt (TyVar.drawn_mono (Nat.le_succ n) (Nat.le_refl m)) ha)]
      exact hζ a (mt (TyVar.drawn_mono (Nat.le_refl n) he.le) ha)
  | @letIn Δ x b e t u σ _ hσ _ ihb ihe =>
    intro θ Γ n M hle hΓ hM
    obtain ⟨s₁, tb, m₁, η₁, hb, rfl, hη₁⟩ :=
      ihb hle hΓ (Nat.le_trans (next_bound_le policy Γ x b e n) hM)
    have hbodyM := Nat.le_trans (next_let_body_le hb x e) hM
    have hm₁ := Nat.le_trans (infer_climbs _ _ _ _) hbodyM
    obtain ⟨hs₁, htb⟩ := hb.solved (hΓ.unknown.mono (Nat.le_refl n) hm₁)
    have hle₁ := hle.after_run hΓ hm₁ hs₁ hη₁
    have hscheme := hσ.le_scheme hle₁
    have htb₁ : tb.subst s₁ = tb := Ty.subst_eq_self fun a ha => (htb a ha).2
    rw [← htb₁] at hscheme
    obtain ⟨s₂, te, m, η₂, he, hte, hη₂⟩ := ihe (hle₁.insert x hscheme)
      (hΓ.letIn hb.le hm₁ hs₁ (fun a ha => (htb a ha).1) policy x) hbodyM
    have hm : m ≤ M := by rwa [(infer_yields_iff.2 he).2] at hbodyM
    refine ⟨_, _, _, η₂, .letIn hb he, hte, ?_⟩
    exact hs₁.assign_compose (hΓ.unknown.mono (Nat.le_refl n) hm) hb.le he.le hη₁ hη₂

/-! ### Closed environments -/

namespace Env.Closed

variable {policy : LetPolicy} {Γ : Env} {e : Expr} {t : Ty}

theorem inferType_ok_iff (h : Γ.Closed) : (inferType policy Γ e).result = .ok t ↔
    ∃ s m, Infers policy Γ Γ.firstFresh e s t m := by
  simp only [h.inferType_result, ← infer_yields_iff, InferM.Yields]
  cases (infer policy Γ e Γ.firstFresh).result with
  | error e => simp [Except.map]
  | ok st =>
    obtain ⟨s, u⟩ := st
    simp [Except.map]

/-- What is found is a type. -/
theorem hasType_of_inferType (h : Γ.Closed) (hok : (inferType policy Γ e).result = .ok t) :
    HasType policy Γ e t := by
  obtain ⟨s, m, hrun⟩ := h.inferType_ok_iff.1 hok
  have := hrun.sound (h.ready _ _)
  rwa [h.subst] at this

/-- What has a type at all gets one of which all its types are instances. -/
theorem exists_inferType (h : Γ.Closed) (ht : HasType policy Γ e t) :
    ∃ u, (inferType policy Γ e).result = .ok u ∧ ∃ R : Subst, u.subst R = t := by
  obtain ⟨s, u, m, η, hrun, hη, -⟩ := ht.inferred (Env.Le.refl .var Γ) (h.ready _ _) (Nat.le_refl _)
  refine ⟨u, h.inferType_ok_iff.2 ⟨s, m, hrun⟩, .tabulate η u.freeVars, ?_⟩
  rw [Ty.subst_tabulate fun a ha => ha, hη]

end Env.Closed

/-! ### Principality -/

/-- A derivation in an environment under a substitution that captures nothing factors through what
inference finds in the environment itself. -/
theorem HasType.exists_infer {policy : LetPolicy} {Γ : Env} {e : Expr} {S : Subst} {t' : Ty}
    {n : Nat} (h : HasType policy (Γ.subst S) e t') (hS : Γ.NoCapture S)
    (hready : Γ.Ready n (infer policy Γ e n).next) :
    ∃ s t, (infer policy Γ e n).result = .ok (s, t) ∧
      ∃ R : Subst, (∀ v ∈ Γ.freeVars, ((Ty.var v).subst s).subst R = (Ty.var v).subst S) ∧
        t.subst R = t' := by
  have hle : Env.Le .var (Γ.subst S) S.assignment Γ := by
    refine .subst_left hS ?_
    simp only [Ty.assign_var]
    exact .refl _ Γ
  obtain ⟨s, t, m, η, hrun, ht, hη⟩ := h.inferred hle hready (Nat.le_refl _)
  obtain ⟨hok, hnext⟩ := infer_yields_iff.2 hrun
  rw [hnext] at hready
  obtain ⟨hs, htvars⟩ := hrun.solved hready.unknown
  refine ⟨s, t, hok, .tabulate η (Γ.scope n m), fun v hv => ?_, ?_⟩
  · have hscope : v ∈ Γ.scope n m := Env.mem_scope.2 (.inl hv)
    have hR := Ty.subst_tabulate (θ := η) fun b hb => (hs.mem_freeVars_assignment hscope hb).1
    exact hR.trans (hη v (hready.unknown v hv))
  · rw [Ty.subst_tabulate fun b hb => (htvars b hb).1, ht]

/-- **Inference is complete and finds principal types.** In an environment where no variable is both
quantified and free, let `S` be a substitution that puts no quantified variable anywhere. Whenever
the expression has a type in the environment under `S`, inference succeeds, and both `S` and that
type are obtained from what it finds by one more substitution. In a closed environment, inference
therefore succeeds on what has a type and on nothing else, and every type is an instance of the one
found. The counter must not run over its 32 bits. -/
theorem infer_principal (policy : LetPolicy) (env : Env) (e : Expr) (hsep : env.Separated)
    (hcount : (infer policy env e env.firstFresh).next ≤ TyVar.maxNumber) :
    (∀ (S : Subst) (t' : Ty), S.Avoids env.quantified → HasType policy (env.subst S) e t' →
      ∃ s t, (infer policy env e env.firstFresh).result = .ok (s, t) ∧
        ∃ R : Subst, (∀ v ∈ env.freeVars, ((Ty.var v).subst s).subst R = (Ty.var v).subst S) ∧
          t.subst R = t') ∧
    (env.Closed →
      ((∃ t, (inferType policy env e).result = .ok t) ↔ ∃ t', HasType policy env e t') ∧
      ∀ t t', (inferType policy env e).result = .ok t → HasType policy env e t' →
        ∃ R : Subst, t.subst R = t') := by
  refine ⟨fun S t' hS ht' => ht'.exists_infer hS.noCapture (hsep.ready hcount), fun hclosed =>
    ⟨⟨fun ⟨t, ht⟩ => ⟨t, hclosed.hasType_of_inferType ht⟩, fun ⟨t', ht'⟩ => ?_⟩,
      fun t t' ht ht' => ?_⟩⟩
  · obtain ⟨t, ht, -⟩ := hclosed.exists_inferType ht'
    exact ⟨t, ht⟩
  · obtain ⟨u, hu, R, hR⟩ := hclosed.exists_inferType ht'
    obtain rfl := Except.ok.inj (ht.symm.trans hu)
    exact ⟨R, hR⟩

/-- `\y -> keep x y` has the type `Bool -> Int` once `a` is `Int`. What is found decides neither `a` nor
the type of `y`. -/
theorem infer_principal_withShared :
    let e : Expr := .abs "y" (.apps (.var "keep") [.var "x", .var "y"])
    ∃ s t, (infer .generalize .withShared e Env.withShared.firstFresh).result = .ok (s, t) ∧
      ∃ R : Subst, (∀ v ∈ Env.withShared.freeVars,
          ((Ty.var v).subst s).subst R = (Ty.var v).subst (.single "a" .int)) ∧
        t.subst R = .fn .bool .int := by
  intro e
  have hsep : Env.withShared.Separated := by decide +kernel
  have hnext : (infer .generalize .withShared e Env.withShared.firstFresh).next = 4 := by cbv
  have hS : (Subst.single "a" .int).Avoids Env.withShared.quantified := by
    intro a u hu
    rw [Subst.getElem?_single] at hu
    split at hu
    · cases hu
      simp
    · cases hu
  have hkeep : (Scheme.mk ["q"] (.curried [.int, .var "q"] .int)).Instance
      (.curried [.int, .bool] .int) :=
    ⟨.single "q" .bool, by simp [Subst.single], by decide +kernel⟩
  have hty : HasType .generalize (Env.withShared.subst (.single "a" .int)) e (.fn .bool .int) := by
    refine .abs (.app (.app (.var (σ := ⟨["q"], .curried [.int, .var "q"] .int⟩) ?_ hkeep)
      (.var (σ := .mono .int) ?_ ⟨∅, by simp, by simp [Scheme.mono]⟩))
      (.var (σ := .mono .bool) ?_ ⟨∅, by simp, by simp [Scheme.mono]⟩)) <;> decide +kernel
  exact (infer_principal .generalize .withShared e hsep (hnext ▸ by decide)).1 _ _ hS hty

end LetPoly
