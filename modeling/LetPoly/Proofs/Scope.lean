import LetPoly.Proofs.Runs

/-!
# The variables of a run

A run from counter `n` to `m` in an environment has the free variables of the environment and those
it draws as its scope. What it binds and returns stays in that scope, and if the drawn variables are
new to the environment, nothing that it binds is left in what it returns (`Infers.solved`). So one
application of its substitution is enough, and two runs in a row can be composed.

`Env.Ready Γ n m` is what an environment needs besides: no substitution over its scope captures
anything in it. A run keeps it (`Env.Ready.subst`, `Env.Ready.param`, `Env.Ready.letIn`). An environment
where no variable is both quantified and free has it at the start, and so has every closed one.
-/

namespace LetPoly

/-- The variables that a run may mention: the free ones and the drawn ones. -/
def Env.scope (Γ : Env) (n m : Nat) : List TyVar := Γ.freeVars ++ TyVar.drawn n m

theorem Env.mem_scope {Γ : Env} {n m : Nat} {a : TyVar} :
    a ∈ Γ.scope n m ↔ a ∈ Γ.freeVars ∨ a ∈ TyVar.drawn n m := List.mem_append

/-- A wider range has more in its scope. -/
theorem Env.mem_scope_mono {Γ : Env} {n m n' m' : Nat} (hn : n' ≤ n) (hm : m ≤ m') {a : TyVar}
    (ha : a ∈ Γ.scope n m) : a ∈ Γ.scope n' m' :=
  Env.mem_scope.2 ((Env.mem_scope.1 ha).imp_right (TyVar.drawn_mono hn hm))

/-- The variables that a run will draw are new to an environment. -/
def Env.Unknown (Γ : Env) (n m : Nat) : Prop := ∀ a ∈ Γ.freeVars, a ∉ TyVar.drawn n m

theorem Env.Unknown.mono {Γ : Env} {n m n' m' : Nat} (h : Γ.Unknown n m) (hn : n ≤ n')
    (hm : m' ≤ m) : Γ.Unknown n' m' :=
  fun a ha hd => h a ha (TyVar.drawn_mono hn hm hd)

/-- What a run may mention is not drawn later. -/
theorem Env.Unknown.notMem_drawn {Γ : Env} {n k m : Nat} (hΓ : Γ.Unknown n m) (hnk : n ≤ k)
    {a : TyVar} (ha : a ∈ Γ.scope n k) : a ∉ TyVar.drawn k m := by
  rcases Env.mem_scope.1 ha with ha | ha
  · exact fun hd => hΓ a ha (TyVar.drawn_mono hnk (Nat.le_refl m) hd)
  · exact TyVar.notMem_drawn ha

/-- A later run in an environment that an earlier run leaves draws what is new to it again. -/
theorem Env.Unknown.later {Γ Δ : Env} {n k m : Nat} (hΓ : Γ.Unknown n m) (hnk : n ≤ k)
    (hΔ : ∀ b ∈ Δ.freeVars, b ∈ Γ.scope n k) : Δ.Unknown k m :=
  fun b hb => hΓ.notMem_drawn hnk (hΔ b hb)

namespace Subst.Solved

variable {r s : Subst} {Γ Δ : Env} {n k m : Nat}

/-- What is left of an earlier run's scope, and what is drawn after it, it does not bind. -/
theorem left (hr : r.Solved (Γ.scope n k)) (hΓ : Γ.Unknown n m) (hnk : n ≤ k) (hkm : k ≤ m)
    {b : TyVar} (hb : (b ∈ Γ.scope n k ∧ b ∉ r) ∨ b ∈ TyVar.drawn k m) :
    b ∈ Γ.scope n m ∧ b ∉ r := by
  rcases hb with ⟨hb, hbr⟩ | hb
  · exact ⟨Env.mem_scope_mono (Nat.le_refl n) hkm hb, hbr⟩
  · refine ⟨Env.mem_scope.2 (.inr (TyVar.drawn_mono hnk (Nat.le_refl m) hb)), fun hbr => ?_⟩
    exact hΓ.notMem_drawn hnk (hr.mem_of_bound b hbr) hb

/-- The scope of a later run, in an environment that the earlier run leaves. -/
theorem left_scope (hr : r.Solved (Γ.scope n k)) (hΓ : Γ.Unknown n m) (hnk : n ≤ k) (hkm : k ≤ m)
    (hΔ : ∀ b ∈ Δ.freeVars, b ∈ Γ.scope n k ∧ b ∉ r) {b : TyVar} (hb : b ∈ Δ.scope k m) :
    b ∈ Γ.scope n m ∧ b ∉ r :=
  hr.left hΓ hnk hkm ((Env.mem_scope.1 hb).imp_left (hΔ b))

theorem mono_scope (hr : r.Solved (Γ.scope n k)) (hkm : k ≤ m) : r.Solved (Γ.scope n m) :=
  hr.mono fun _ => Env.mem_scope_mono (Nat.le_refl n) hkm

/-- Two runs in a row. -/
theorem compose_scope (hr : r.Solved (Γ.scope n k)) (hΓ : Γ.Unknown n m) (hnk : n ≤ k) (hkm : k ≤ m)
    (hΔ : ∀ b ∈ Δ.freeVars, b ∈ Γ.scope n k ∧ b ∉ r) (hs : s.Solved (Δ.scope k m)) :
    (s.compose r).Solved (Γ.scope n m) :=
  (hr.mono_scope hkm).compose hs fun _ hb => hr.left_scope hΓ hnk hkm hΔ hb

theorem mem_freeVars_assignment {vars : List TyVar} (hs : s.Solved vars) {a b : TyVar}
    (ha : a ∈ vars) (hb : b ∈ (s.assignment a).freeVars) : b ∈ vars ∧ b ∉ s :=
  hs.mem_freeVars_subst (t := .var a) (by simpa using ha) hb

/-- A substituted environment has no free variable that is bound. -/
theorem mem_freeVars_env {vars : List TyVar} (hs : s.Solved vars)
    (hΓ : ∀ a ∈ Γ.freeVars, a ∈ vars) {b : TyVar} (hb : b ∈ (Γ.subst s).freeVars) :
    b ∈ vars ∧ b ∉ s := by
  obtain ⟨a, ha, hb⟩ := Env.exists_of_mem_freeVars_subst hb
  exact hs.mem_freeVars_assignment (hΓ a ha) hb

/-- The environment that a run leaves. -/
theorem mem_freeVars_left (hr : r.Solved (Γ.scope n k)) {b : TyVar}
    (hb : b ∈ (Γ.subst r).freeVars) : b ∈ Γ.scope n k ∧ b ∉ r :=
  hr.mem_freeVars_env (fun _ ha => Env.mem_scope.2 (.inl ha)) hb

end Subst.Solved

/-- What there is to unify in an application mentions nothing that its parts have bound. -/
theorem Subst.Solved.mem_freeVars_app {Γ : Env} {n m₀ m₁ : Nat} {s₀ s₁ : Subst} {tf ta : Ty}
    (hs₀ : s₀.Solved (Γ.scope n m₀)) (htf : ∀ b ∈ tf.freeVars, b ∈ Γ.scope n m₀ ∧ b ∉ s₀)
    (hs₁ : s₁.Solved ((Γ.subst s₀).scope m₀ m₁))
    (hta : ∀ b ∈ ta.freeVars, b ∈ (Γ.subst s₀).scope m₀ m₁ ∧ b ∉ s₁)
    (hΓ : Γ.Unknown n (m₁ + 1)) (h₀ : n ≤ m₀) (h₁ : m₀ ≤ m₁) :
    ∀ b ∈ (Ty.fn (tf.subst s₁) (.fn ta (.var (TyVar.fresh m₁)))).freeVars,
      b ∈ Γ.scope n (m₁ + 1) ∧ b ∉ s₁.compose s₀ := by
  have hΓ₁ : Γ.Unknown n m₁ := hΓ.mono (Nat.le_refl n) (Nat.le_succ m₁)
  have hΓ₀ : ∀ b ∈ (Γ.subst s₀).freeVars, b ∈ Γ.scope n m₀ ∧ b ∉ s₀ :=
    fun b hb => hs₀.mem_freeVars_left hb
  have hleft : ∀ b ∈ (Γ.subst s₀).scope m₀ m₁, b ∈ Γ.scope n m₁ ∧ b ∉ s₀ :=
    fun b hb => hs₀.left_scope hΓ₁ h₀ h₁ hΓ₀ hb
  intro b hb
  refine (hs₀.compose_scope hΓ₁ h₀ h₁ hΓ₀ hs₁).left hΓ (by omega) (Nat.le_succ m₁) ?_
  rcases Ty.mem_freeVars_fn.1 hb with hb | hb
  · rcases Ty.mem_freeVars_subst.1 hb with ⟨hb, hb₁⟩ | ⟨c, -, u, hc, hb⟩
    · have := hs₀.left hΓ₁ h₀ h₁ (.inl (htf b hb))
      exact .inl ⟨this.1, fun h => (Subst.mem_compose.1 h).elim hb₁ this.2⟩
    · have := hleft b (hs₁.mem_of_mem c u hc b hb)
      have hb₁ := hs₁.unbound_of_mem c u hc b hb
      exact .inl ⟨this.1, fun h => (Subst.mem_compose.1 h).elim hb₁ this.2⟩
  · rcases Ty.mem_freeVars_fn.1 hb with hb | hb
    · have := hleft b (hta b hb).1
      exact .inl ⟨this.1, fun h => (Subst.mem_compose.1 h).elim (hta b hb).2 this.2⟩
    · obtain rfl : b = TyVar.fresh m₁ := by simpa using hb
      exact .inr (TyVar.fresh_mem_drawn.2 (by omega))

/-- The environment of the body of an abstraction. -/
theorem Env.mem_freeVars_param {Γ : Env} {x : String} {n : Nat} {b : TyVar}
    (hb : b ∈ Env.freeVars (Γ.insert x (.mono (.var (TyVar.fresh n))))) : b ∈ Γ.scope n (n + 1) := by
  rcases Env.mem_freeVars_insert hb with hb | hb
  · obtain rfl : b = TyVar.fresh n := by simpa using hb
    exact Env.mem_scope.2 (.inr (TyVar.fresh_mem_drawn.2 (by omega)))
  · exact Env.mem_scope.2 (.inl hb)

/-- The scope of the body of an abstraction is within that of the abstraction. -/
theorem Env.mem_scope_param {Γ : Env} {x : String} {n m : Nat} (h : n + 1 ≤ m) {b : TyVar}
    (hb : b ∈ Env.scope (Γ.insert x (.mono (.var (TyVar.fresh n)))) (n + 1) m) : b ∈ Γ.scope n m := by
  rcases Env.mem_scope.1 hb with hb | hb
  · exact Env.mem_scope_mono (Nat.le_refl n) h (Env.mem_freeVars_param hb)
  · exact Env.mem_scope.2 (.inr (TyVar.drawn_mono (Nat.le_succ n) (Nat.le_refl m) hb))

theorem LetPolicy.mem_freeVars_scheme {policy : LetPolicy} {Γ : Env} {t : Ty} {b : TyVar}
    (hb : b ∈ (policy.scheme Γ t).freeVars) : b ∈ t.freeVars := by
  cases policy with
  | generalize => exact (Scheme.mem_freeVars.1 hb).1
  | monomorphic => simpa [scheme] using hb

/-- The environment of the body of a `let`. -/
theorem Subst.Solved.mem_freeVars_let {Γ : Env} {n k : Nat} {s : Subst} {t : Ty}
    (hs : s.Solved (Γ.scope n k)) (ht : ∀ a ∈ t.freeVars, a ∈ Γ.scope n k) (policy : LetPolicy)
    (x : String) : ∀ b ∈ Env.freeVars ((Γ.subst s).insert x
      (policy.scheme (Γ.subst s) (t.subst s))), b ∈ Γ.scope n k ∧ b ∉ s := by
  intro b hb
  rcases Env.mem_freeVars_insert hb with hb | hb
  · exact hs.mem_freeVars_subst ht (policy.mem_freeVars_scheme hb)
  · exact hs.mem_freeVars_left hb

namespace Infers

variable {policy : LetPolicy} {Γ : Env} {n m : Nat} {e : Expr} {s : Subst} {t : Ty}

theorem le (h : Infers policy Γ n e s t m) : n ≤ m := by
  obtain ⟨-, rfl⟩ := infer_yields_iff.2 h
  exact infer_climbs policy Γ e n

/-- A run in an environment that does not know the drawn variables stays in its scope, and leaves no
variable that it binds. -/
theorem solved (h : Infers policy Γ n e s t m) :
    Γ.Unknown n m → s.Solved (Γ.scope n m) ∧ ∀ b ∈ t.freeVars, b ∈ Γ.scope n m ∧ b ∉ s := by
  induction h with
  | @var Γ n x σ hx =>
    intro _
    refine ⟨.empty _, fun b hb => ⟨?_, by simp⟩⟩
    rw [Ty.subst_eq_assign, Ty.mem_freeVars_assign] at hb
    obtain ⟨a, hbody, hb⟩ := hb
    by_cases ha : a ∈ σ.vars
    · obtain ⟨i, -, hfresh⟩ := σ.exists_renewal n ha
      obtain rfl : b = TyVar.fresh (n + i) := by simpa [hfresh] using hb
      exact Env.mem_scope.2 (.inr (σ.mem_drawn_of_renewal ha hfresh))
    · rw [Subst.assignment_of_notMem (mt Scheme.mem_renewal.1 ha)] at hb
      obtain rfl : b = a := by simpa using hb
      exact Env.mem_scope.2 (.inl (Env.mem_freeVars.2 ⟨x, σ, hx, Scheme.mem_freeVars.2 ⟨hbody, ha⟩⟩))
  | lit l =>
    intro _
    refine ⟨.empty _, fun b hb => ?_⟩
    cases l <;> simp [Literal.ty] at hb
  | @app Γ n m₀ m₁ f a s₀ s₁ s₂ tf ta hf ha hu ihf iha =>
    intro hΓ
    have h₀ := hf.le
    have h₁ := ha.le
    obtain ⟨hs₀, htf⟩ := ihf (hΓ.mono (Nat.le_refl _) (by omega))
    have hΓ₀ : ∀ b ∈ (Γ.subst s₀).freeVars, b ∈ Γ.scope n m₀ ∧ b ∉ s₀ :=
      fun b hb => hs₀.mem_freeVars_left hb
    obtain ⟨hs₁, hta⟩ := iha
      ((hΓ.mono (Nat.le_refl n) (Nat.le_succ m₁)).later h₀ fun b hb => (hΓ₀ b hb).1)
    have hs₁₀ := hs₀.compose_scope (hΓ.mono (Nat.le_refl n) (Nat.le_succ m₁)) h₀ h₁ hΓ₀ hs₁
    have hunify := hs₀.mem_freeVars_app htf hs₁ hta hΓ h₀ h₁
    have hs₂ := unify_solved hu
    refine ⟨(hs₁₀.mono_scope (Nat.le_succ m₁)).compose hs₂ hunify, fun b hb => ?_⟩
    obtain ⟨hb, hb₂⟩ := hs₂.mem_freeVars_subst (by simp) hb
    exact ⟨(hunify b hb).1, fun h => (Subst.mem_compose.1 h).elim hb₂ (hunify b hb).2⟩
  | @abs Γ n m x e s te he ih =>
    intro hΓ
    have hm := he.le
    have hparam : TyVar.fresh n ∈ Γ.scope n m :=
      Env.mem_scope.2 (.inr (TyVar.fresh_mem_drawn.2 (by omega)))
    obtain ⟨hs, hte⟩ := ih (hΓ.later (Nat.le_succ n) fun b hb => Env.mem_freeVars_param hb)
    have hs := hs.mono fun b hb => Env.mem_scope_param hm hb
    refine ⟨hs, fun b hb => ?_⟩
    rcases Ty.mem_freeVars_fn.1 hb with hb | hb
    · exact hs.mem_freeVars_assignment hparam hb
    · exact ⟨Env.mem_scope_param hm (hte b hb).1, (hte b hb).2⟩
  | @letIn Γ n m₁ m x b e s₁ s₂ tb te hb he ihb ihe =>
    intro hΓ
    have h₁ := hb.le
    have h₂ := he.le
    obtain ⟨hs₁, htb⟩ := ihb (hΓ.mono (Nat.le_refl n) h₂)
    have hfree := hs₁.mem_freeVars_let (fun a ha => (htb a ha).1) policy x
    obtain ⟨hs₂, hte⟩ := ihe (hΓ.later h₁ fun c hc => (hfree c hc).1)
    have hleft := fun c hc => hs₁.left_scope (b := c) hΓ h₁ h₂ hfree hc
    refine ⟨hs₁.compose_scope hΓ h₁ h₂ hfree hs₂, fun c hc => ?_⟩
    obtain ⟨hc, hc₂⟩ := hte c hc
    exact ⟨(hleft c hc).1, fun h => (Subst.mem_compose.1 h).elim hc₂ (hleft c hc).2⟩

/-- Its substitution changes nothing in the type that a run finds. -/
theorem subst_ty (h : Infers policy Γ n e s t m) (hΓ : Γ.Unknown n m) : t.subst s = t :=
  Ty.subst_eq_self fun a ha => ((h.solved hΓ).2 a ha).2

/-- The substitutions of a run and of one in the environment that it leaves. -/
theorem solved_compose {k : Nat} {e' : Expr} {r : Subst} {u : Ty} (h : Infers policy Γ n e s t k)
    (h' : Infers policy (Γ.subst s) k e' r u m) (hΓ : Γ.Unknown n m) :
    s.Solved (Γ.scope n k) ∧ r.Solved ((Γ.subst s).scope k m) ∧
      (r.compose s).Solved (Γ.scope n m) := by
  obtain ⟨hs, -⟩ := h.solved (hΓ.mono (Nat.le_refl n) h'.le)
  have hleft : ∀ b ∈ (Γ.subst s).freeVars, b ∈ Γ.scope n k ∧ b ∉ s :=
    fun _ hb => hs.mem_freeVars_left hb
  obtain ⟨hr, -⟩ := h'.solved (hΓ.later h.le fun b hb => (hleft b hb).1)
  exact ⟨hs, hr, hs.compose_scope hΓ h.le h'.le hleft hr⟩

end Infers

/-! ### Environments without capture -/

/-- What is drawn from `n` to `m` is new to an environment, and no scheme with free variables
quantifies a variable that a run may mention. -/
structure Env.Ready (Γ : Env) (n m : Nat) : Prop where
  unknown : Γ.Unknown n m
  apart : ∀ (x : String) (σ : Scheme), Γ[x]? = some σ → σ.freeVars ≠ [] →
    ∀ q ∈ σ.vars, q ∉ Γ.scope n m

namespace Env.Ready

variable {Γ : Env} {n k m : Nat} {s : Subst}

theorem mono (h : Γ.Ready n m) {n' m' : Nat} (hn : n ≤ n') (hm : m' ≤ m) : Γ.Ready n' m' where
  unknown := h.unknown.mono hn hm
  apart x σ hx hσ q hq hmem := h.apart x σ hx hσ q hq (Env.mem_scope_mono hn hm hmem)

theorem noCapture (h : Γ.Ready n m) (hs : s.Solved (Γ.scope n m)) : Γ.NoCapture s := by
  intro x σ hx a ha b hb hq
  refine h.apart x σ hx (List.ne_nil_of_mem ha) b hq ?_
  have hscope : a ∈ Γ.scope n m := Env.mem_scope.2 (.inl (Env.mem_freeVars.2 ⟨x, σ, hx, ha⟩))
  exact (hs.mem_freeVars_assignment hscope hb).1

/-- After a run, its substitution may be applied. -/
theorem subst (h : Γ.Ready n m) (hnk : n ≤ k) (hkm : k ≤ m) (hs : s.Solved (Γ.scope n k)) :
    (Γ.subst s).Ready k m where
  unknown := h.unknown.later hnk fun _ hb => (hs.mem_freeVars_left hb).1
  apart x σ' hx hσ q hq hmem := by
    rw [getElem?_subst, Option.map_eq_some_iff] at hx
    obtain ⟨σ, hx, rfl⟩ := hx
    refine h.apart x σ hx (Scheme.freeVars_ne_nil_of_subst hσ) q hq ?_
    exact (hs.left_scope h.unknown hnk hkm (fun _ hb => hs.mem_freeVars_left hb) hmem).1

/-- The body of an abstraction may be inferred. -/
theorem param (h : Γ.Ready n m) (hm : n + 1 ≤ m) (x : String) :
    Env.Ready (Γ.insert x (.mono (.var (TyVar.fresh n)))) (n + 1) m where
  unknown := h.unknown.later (Nat.le_succ n) fun _ hb => Env.mem_freeVars_param hb
  apart y σ hy hσ q hq hmem := by
    rw [Std.ExtTreeMap.getElem?_insert] at hy
    split at hy
    · obtain rfl := Option.some.inj hy
      simp [Scheme.mono] at hq
    · exact h.apart y σ hy hσ q hq (Env.mem_scope_param hm hmem)

/-- The body of a `let` may be inferred. -/
theorem letIn (h : Γ.Ready n m) (hnk : n ≤ k) (hkm : k ≤ m) (hs : s.Solved (Γ.scope n k)) {t : Ty}
    (ht : ∀ a ∈ t.freeVars, a ∈ Γ.scope n k) (policy : LetPolicy) (x : String) :
    Env.Ready ((Γ.subst s).insert x (policy.scheme (Γ.subst s) (t.subst s))) k m where
  unknown := h.unknown.later hnk fun b hb => (hs.mem_freeVars_let ht policy x b hb).1
  apart y σ hy hσ q hq hmem := by
    rw [Std.ExtTreeMap.getElem?_insert] at hy
    split at hy
    · obtain rfl := Option.some.inj hy
      cases policy with
      | generalize =>
        obtain ⟨hqt, hqΓ⟩ := mem_vars_generalize.1 hq
        rcases Env.mem_scope.1 hmem with hmem | hmem
        · rcases Env.mem_freeVars_insert hmem with hmem | hmem
          · exact (Scheme.mem_freeVars.1 hmem).2 hq
          · exact hqΓ hmem
        · exact h.unknown.notMem_drawn hnk (hs.mem_freeVars_subst ht hqt).1 hmem
      | monomorphic => simp [LetPolicy.scheme, Scheme.mono] at hq
    · rw [getElem?_subst, Option.map_eq_some_iff] at hy
      obtain ⟨σ₀, hy, rfl⟩ := hy
      refine h.apart y σ₀ hy (Scheme.freeVars_ne_nil_of_subst hσ) q hq ?_
      exact (hs.left_scope h.unknown hnk hkm (hs.mem_freeVars_let ht policy x) hmem).1

end Env.Ready

namespace Infers

variable {policy : LetPolicy} {Γ : Env} {n k m : Nat} {e : Expr} {s : Subst} {t : Ty}

/-- After a run, another one may follow in the environment that it leaves. -/
theorem ready_subst (h : Infers policy Γ n e s t k) (hΓ : Γ.Ready n m) (hkm : k ≤ m) :
    (Γ.subst s).Ready k m :=
  hΓ.subst h.le hkm (h.solved (hΓ.unknown.mono (Nat.le_refl n) hkm)).1

/-- After the run of a bound expression, the body of its `let` may follow. -/
theorem ready_letIn (h : Infers policy Γ n e s t k) (hΓ : Γ.Ready n m) (hkm : k ≤ m) (x : String) :
    Env.Ready ((Γ.subst s).insert x (policy.scheme (Γ.subst s) (t.subst s))) k m := by
  obtain ⟨hs, ht⟩ := h.solved (hΓ.unknown.mono (Nat.le_refl n) hkm)
  exact hΓ.letIn h.le hkm hs (fun a ha => (ht a ha).1) policy x

end Infers

/-! ### Where a run may start -/

/-- The variables that some scheme quantifies. -/
def Env.quantified (Γ : Env) : List TyVar := Γ.schemes.flatMap Scheme.vars

/-- What a substitution puts for a variable mentions none of some others. -/
def Subst.Avoids (s : Subst) (vars : List TyVar) : Prop :=
  ∀ (a : TyVar) (t : Ty), s[a]? = some t → ∀ b ∈ vars, b ∉ t.freeVars

theorem Subst.Avoids.noCapture {s : Subst} {Γ : Env} (h : s.Avoids Γ.quantified) :
    Γ.NoCapture s := by
  intro x σ hx a ha b hb hq
  rcases Subst.mem_freeVars_assignment hb with rfl | ⟨t, ht, hb⟩
  · exact (Scheme.mem_freeVars.1 ha).2 hq
  · exact h a t ht b (List.mem_flatMap.2 ⟨σ, Env.mem_schemes.2 ⟨x, hx⟩, hq⟩) hb

namespace Env

/-- No variable is both quantified and free. -/
def Separated (Γ : Env) : Prop := ∀ a ∈ Γ.quantified, a ∉ Γ.freeVars

instance (Γ : Env) : Decidable Γ.Separated :=
  inferInstanceAs (Decidable (∀ a ∈ Γ.quantified, a ∉ Γ.freeVars))

/-- No variable is free. -/
def Closed (Γ : Env) : Prop := Γ.freeVars = []

instance (Γ : Env) : Decidable Γ.Closed := inferInstanceAs (Decidable (Γ.freeVars = []))

theorem Closed.freeVars_scheme {Γ : Env} (h : Γ.Closed) {x : String} {σ : Scheme}
    (hx : Γ[x]? = some σ) : σ.freeVars = [] := by
  refine List.eq_nil_iff_forall_not_mem.2 fun a ha => ?_
  have hmem := mem_freeVars.2 ⟨x, σ, hx, ha⟩
  rw [Closed] at h
  simp [h] at hmem

/-- In a closed environment there is nothing to keep apart, whatever is drawn. -/
theorem Closed.ready {Γ : Env} (h : Γ.Closed) (n m : Nat) : Γ.Ready n m where
  unknown a ha := by
    rw [Closed] at h
    simp [h] at ha
  apart _ _ hx hσ := absurd (h.freeVars_scheme hx) hσ

theorem Closed.subst {Γ : Env} (h : Γ.Closed) (s : Subst) : Γ.subst s = Γ := by
  refine Std.ExtTreeMap.ext_getElem? fun x => ?_
  rw [getElem?_subst]
  cases hx : Γ[x]? with
  | none => rfl
  | some σ =>
    have hbody : σ.body.assign (s.assignment.override σ.vars .var) = σ.body := by
      refine Ty.assign_eq_self fun a ha => Assignment.override_of_mem ?_
      exact Scheme.mem_vars_of_closed (h.freeVars_scheme hx) ha
    rw [Option.map_some, Scheme.subst_eq, hbody]

theorem Closed.subst_ty {Γ : Env} (h : Γ.Closed) {policy : LetPolicy} {n m : Nat} {e : Expr}
    {s : Subst} {t : Ty} (hrun : Infers policy Γ n e s t m) : t.subst s = t :=
  hrun.subst_ty (h.ready n m).unknown

theorem Closed.inferType_result {Γ : Env} (h : Γ.Closed) (policy : LetPolicy) (e : Expr) :
    (inferType policy Γ e).result = (infer policy Γ e Γ.firstFresh).result.map Prod.snd := by
  unfold inferType
  rw [InferM.result_bind]
  cases hr : (infer policy Γ e Γ.firstFresh).result with
  | error e => rfl
  | ok st => exact congrArg Except.ok (h.subst_ty (infer_yields_iff.1 ⟨hr, rfl⟩))

/-- As long as the counter does not overflow, what is drawn from the first fresh number on is no name
of the environment, neither a free nor a quantified one. -/
theorem names_notMem_drawn {Γ : Env} {m : Nat} (hm : m ≤ TyVar.maxNumber) {x : String} {σ : Scheme}
    (hx : Γ[x]? = some σ) {a : TyVar} (ha : a ∈ σ.names) : a ∉ TyVar.drawn Γ.firstFresh m := by
  intro hd
  obtain ⟨k, hk, rfl⟩ := TyVar.mem_drawn.1 hd
  have := lt_firstFresh hx ha (by omega)
  omega

theorem unknown_firstFresh (Γ : Env) {m : Nat} (hm : m ≤ TyVar.maxNumber) :
    Γ.Unknown Γ.firstFresh m := by
  intro a ha
  obtain ⟨x, σ, hx, ha⟩ := mem_freeVars.1 ha
  exact names_notMem_drawn hm hx (List.mem_append_right _ (Scheme.mem_freeVars.1 ha).1)

/-- As long as the counter does not overflow, a run may start at the first fresh number. -/
theorem Separated.ready {Γ : Env} (h : Γ.Separated) {m : Nat} (hm : m ≤ TyVar.maxNumber) :
    Γ.Ready Γ.firstFresh m := by
  refine ⟨Γ.unknown_firstFresh hm, fun x σ hx _ q hq hmem => ?_⟩
  rcases mem_scope.1 hmem with hmem | hmem
  · exact h q (List.mem_flatMap.2 ⟨σ, mem_schemes.2 ⟨x, hx⟩, hq⟩) hmem
  · exact names_notMem_drawn hm hx (List.mem_append_left _ hq) hmem

end Env

end LetPoly
