import LetPoly.Proofs.Assignment

/-!
# Instances of schemes, and which environment is more general

A scheme is looked at together with an assignment of its free variables. Its instances under that
assignment are the types that it stands for once the free variables are replaced. Quantified
variables never have to be renamed to say so, because the assignment is not applied to the types
that stand for them. Applying a substitution to the scheme itself gives the same instances when
nothing is captured (`Scheme.instanceUnder_subst`), and this is the only place where capture matters.

`Env.Le θ Γ θ' Γ'` says that every name has at least as many instances in `Γ'` under `θ'` as in `Γ`
under `θ`. The free variables of the two are then related too (`Env.Le.freeVars`), since the
variables of what is substituted for a free one show in every instance.
-/

namespace LetPoly

/-- An assignment that differs on some variables. -/
def Assignment.override (θ : Assignment) (vars : List TyVar) (r : Assignment) : Assignment :=
  fun a => if a ∈ vars then r a else θ a

theorem Assignment.override_of_mem {θ r : Assignment} {vars : List TyVar} {a : TyVar}
    (h : a ∈ vars) : θ.override vars r a = r a := if_pos h

theorem Assignment.override_of_notMem {θ r : Assignment} {vars : List TyVar} {a : TyVar}
    (h : a ∉ vars) : θ.override vars r a = θ a := if_neg h

@[simp] theorem Assignment.override_nil (θ r : Assignment) : θ.override [] r = θ := by
  funext a
  exact Assignment.override_of_notMem (by simp)

@[simp] theorem Assignment.override_self (θ : Assignment) (vars : List TyVar) :
    θ.override vars θ = θ := by
  funext a
  exact ite_self _

namespace Scheme

/-- The types that a scheme stands for: its body with types for quantified variables. -/
def Instance (σ : Scheme) (t : Ty) : Prop :=
  ∃ r : Subst, (∀ a ∈ r, a ∈ σ.vars) ∧ t = σ.body.subst r

/-- The types that a scheme stands for when its free variables are replaced. -/
def InstanceUnder (θ : Assignment) (σ : Scheme) (t : Ty) : Prop :=
  ∃ r : Assignment, t = σ.body.assign (θ.override σ.vars r)

theorem instanceUnder_var {σ : Scheme} {t : Ty} : σ.InstanceUnder .var t ↔ σ.Instance t := by
  constructor
  · rintro ⟨r, rfl⟩
    refine ⟨.tabulate r σ.vars, fun a ha => Subst.mem_tabulate.1 ha, ?_⟩
    rw [Ty.subst_eq_assign]
    refine Ty.assign_congr fun a _ => ?_
    by_cases ha : a ∈ σ.vars
    · rw [Assignment.override_of_mem ha, Subst.assignment_tabulate r ha]
    · rw [Assignment.override_of_notMem ha, Subst.assignment_of_notMem (mt Subst.mem_tabulate.1 ha)]
  · rintro ⟨r, hr, rfl⟩
    refine ⟨r.assignment, ?_⟩
    rw [Ty.subst_eq_assign]
    refine Ty.assign_congr fun a _ => ?_
    by_cases ha : a ∈ σ.vars
    · rw [Assignment.override_of_mem ha]
    · rw [Assignment.override_of_notMem ha, Subst.assignment_of_notMem (mt (hr a) ha)]

@[simp] theorem instanceUnder_mono {θ : Assignment} {t u : Ty} :
    (mono t).InstanceUnder θ u ↔ u = t.assign θ := by
  simp only [InstanceUnder, mono, Assignment.override_nil]
  constructor
  · rintro ⟨_, h⟩
    exact h
  · intro h
    exact ⟨.var, h⟩

/-- Only the free variables of a scheme matter to what it stands for. -/
theorem InstanceUnder.congr {θ η : Assignment} {σ : Scheme} {t : Ty}
    (h : ∀ a ∈ σ.freeVars, θ a = η a) (ht : σ.InstanceUnder θ t) : σ.InstanceUnder η t := by
  obtain ⟨r, rfl⟩ := ht
  refine ⟨r, Ty.assign_congr fun a hbody => ?_⟩
  by_cases ha : a ∈ σ.vars
  · simp only [Assignment.override_of_mem ha]
  · simp only [Assignment.override_of_notMem ha, h a (mem_freeVars.2 ⟨hbody, ha⟩)]

/-- An assignment applied to an instance can be applied to the free variables instead. -/
theorem InstanceUnder.assign {θ : Assignment} {σ : Scheme} {t : Ty} (h : σ.InstanceUnder θ t)
    (η : Assignment) : σ.InstanceUnder (fun a => (θ a).assign η) (t.assign η) := by
  obtain ⟨r, rfl⟩ := h
  refine ⟨fun a => (r a).assign η, ?_⟩
  rw [Ty.assign_assign]
  refine Ty.assign_congr fun a _ => ?_
  by_cases ha : a ∈ σ.vars
  · simp only [Assignment.override_of_mem ha]
  · simp only [Assignment.override_of_notMem ha]

/-- A scheme with the same body that quantifies no less stands for no fewer types. -/
theorem InstanceUnder.of_vars {θ : Assignment} {vars vars' : List TyVar} {t u : Ty}
    (hvars : ∀ a ∈ t.freeVars, a ∈ vars → a ∈ vars') (h : InstanceUnder θ ⟨vars, t⟩ u) :
    InstanceUnder θ ⟨vars', t⟩ u := by
  obtain ⟨r, rfl⟩ := h
  refine ⟨θ.override vars r, Ty.assign_congr fun a ha => ?_⟩
  by_cases hmem : a ∈ vars
  · rw [Assignment.override_of_mem (hvars a ha hmem)]
  · by_cases hmem' : a ∈ vars'
    · rw [Assignment.override_of_mem hmem']
    · rw [Assignment.override_of_notMem hmem, Assignment.override_of_notMem hmem']

/-! ### Free variables and capture -/

theorem mem_vars_of_closed {σ : Scheme} (h : σ.freeVars = []) {a : TyVar}
    (ha : a ∈ σ.body.freeVars) : a ∈ σ.vars := by
  have hfree : a ∉ σ.freeVars := by simp [h]
  simpa [mem_freeVars, ha] using hfree

/-- What is put for a free variable shows in every instance. -/
theorem InstanceUnder.mem_freeVars {θ : Assignment} {σ : Scheme} {t : Ty}
    (h : σ.InstanceUnder θ t) {a b : TyVar} (ha : a ∈ σ.freeVars) (hb : b ∈ (θ a).freeVars) :
    b ∈ t.freeVars := by
  obtain ⟨r, rfl⟩ := h
  obtain ⟨hbody, hvars⟩ := Scheme.mem_freeVars.1 ha
  exact Ty.mem_freeVars_assign.2 ⟨a, hbody, by rwa [Assignment.override_of_notMem hvars]⟩

/-- Some instance shows nothing else. -/
theorem exists_instanceUnder (θ : Assignment) (σ : Scheme) :
    ∃ t, σ.InstanceUnder θ t ∧
      ∀ b ∈ t.freeVars, ∃ a ∈ σ.freeVars, b ∈ (θ a).freeVars := by
  refine ⟨_, ⟨fun _ => .int, rfl⟩, fun b hb => ?_⟩
  obtain ⟨a, hbody, hb⟩ := Ty.mem_freeVars_assign.1 hb
  by_cases ha : a ∈ σ.vars
  · simp [Assignment.override_of_mem ha] at hb
  · rw [Assignment.override_of_notMem ha] at hb
    exact ⟨a, mem_freeVars.2 ⟨hbody, ha⟩, hb⟩

/-- No variable that a substitution puts for a free one is quantified. -/
def NoCapture (s : Subst) (σ : Scheme) : Prop :=
  ∀ a ∈ σ.freeVars, ∀ b ∈ (s.assignment a).freeVars, b ∉ σ.vars

theorem subst_eq (s : Subst) (σ : Scheme) :
    σ.subst s = ⟨σ.vars, σ.body.assign (s.assignment.override σ.vars .var)⟩ := by
  rw [Scheme.subst, Ty.subst_eq_assign]
  congr 2
  funext a
  rw [Subst.assignment_without]
  rfl

@[simp] theorem subst_mono (s : Subst) (t : Ty) : (mono t).subst s = mono (t.subst s) := by
  rw [subst_eq, Ty.subst_eq_assign]
  rfl

theorem exists_of_mem_freeVars_subst {s : Subst} {σ : Scheme} {b : TyVar}
    (hb : b ∈ (σ.subst s).freeVars) : ∃ a ∈ σ.freeVars, b ∈ (s.assignment a).freeVars := by
  simp only [subst_eq, mem_freeVars, Ty.mem_freeVars_assign] at hb ⊢
  obtain ⟨⟨a, hbody, hb⟩, hvars⟩ := hb
  by_cases ha : a ∈ σ.vars
  · rw [Assignment.override_of_mem ha] at hb
    obtain rfl : b = a := by simpa using hb
    exact absurd ha hvars
  · rw [Assignment.override_of_notMem ha] at hb
    exact ⟨a, ⟨hbody, ha⟩, hb⟩

/-- What is put for a free variable is free, if it is not captured. -/
theorem mem_freeVars_subst {s : Subst} {σ : Scheme} {a b : TyVar} (ha : a ∈ σ.freeVars)
    (hb : b ∈ (s.assignment a).freeVars) (hq : b ∉ σ.vars) : b ∈ (σ.subst s).freeVars := by
  obtain ⟨hbody, hfree⟩ := mem_freeVars.1 ha
  rw [subst_eq]
  refine mem_freeVars.2 ⟨Ty.mem_freeVars_assign.2 ⟨a, hbody, ?_⟩, hq⟩
  rwa [Assignment.override_of_notMem hfree]

theorem freeVars_ne_nil_of_subst {s : Subst} {σ : Scheme} (h : (σ.subst s).freeVars ≠ []) :
    σ.freeVars ≠ [] := by
  obtain ⟨b, hb⟩ := List.exists_mem_of_ne_nil _ h
  obtain ⟨a, ha, -⟩ := exists_of_mem_freeVars_subst hb
  exact List.ne_nil_of_mem ha

/-- Without capture, substituting in a scheme is the same as looking at it under the
substitution. -/
theorem instanceUnder_subst {s : Subst} {σ : Scheme} (hs : σ.NoCapture s) {θ : Assignment}
    {t : Ty} : (σ.subst s).InstanceUnder θ t ↔
      σ.InstanceUnder (fun a => (s.assignment a).assign θ) t := by
  have key : ∀ r : Assignment, (σ.body.assign (s.assignment.override σ.vars .var)).assign
      (θ.override σ.vars r) =
        σ.body.assign (.override (fun a => (s.assignment a).assign θ) σ.vars r) := by
    intro r
    rw [Ty.assign_assign]
    refine Ty.assign_congr fun a hbody => ?_
    by_cases ha : a ∈ σ.vars
    · simp only [Assignment.override_of_mem ha, Ty.assign]
    · simp only [Assignment.override_of_notMem ha]
      refine Ty.assign_congr fun b hb => ?_
      exact Assignment.override_of_notMem (hs a (mem_freeVars.2 ⟨hbody, ha⟩) b hb)
  simp only [subst_eq, InstanceUnder, key]

/-- Without capture, substituting twice is substituting the composition. -/
theorem subst_subst {s r : Subst} {σ : Scheme} (hr : σ.NoCapture r) :
    σ.subst (s.compose r) = (σ.subst r).subst s := by
  simp only [subst_eq, Ty.assign_assign, Subst.assignment_compose]
  congr 1
  refine Ty.assign_congr fun a hbody => ?_
  by_cases ha : a ∈ σ.vars
  · simp only [Assignment.override_of_mem ha, Ty.assign]
  · simp only [Assignment.override_of_notMem ha]
    refine (Ty.assign_congr fun b hb => ?_).symm
    exact Assignment.override_of_notMem (hr a (mem_freeVars.2 ⟨hbody, ha⟩) b hb)

/-- A scheme under an assignment stands for no more types than another one under another. -/
def Le (θ : Assignment) (σ : Scheme) (θ' : Assignment) (σ' : Scheme) : Prop :=
  ∀ t, σ.InstanceUnder θ t → σ'.InstanceUnder θ' t

end Scheme

/-! ### Environments -/

namespace Env

/-- Substituting captures nothing in any scheme. -/
def NoCapture (s : Subst) (env : Env) : Prop :=
  ∀ (x : String) (σ : Scheme), env[x]? = some σ → σ.NoCapture s

theorem subst_subst {s r : Subst} {env : Env} (hr : env.NoCapture r) :
    env.subst (s.compose r) = (env.subst r).subst s := by
  refine Std.ExtTreeMap.ext_getElem? fun x => ?_
  simp only [getElem?_subst]
  cases h : env[x]? with
  | none => rfl
  | some σ => simp [Scheme.subst_subst (hr x σ h)]

theorem subst_insert (s : Subst) (env : Env) (x : String) (σ : Scheme) :
    subst s (env.insert x σ) = (env.subst s).insert x (σ.subst s) := by
  refine Std.ExtTreeMap.ext_getElem? fun y => ?_
  simp only [getElem?_subst, Std.ExtTreeMap.getElem?_insert]
  split <;> rfl

@[simp] theorem subst_empty (env : Env) : env.subst ∅ = env := by
  refine Std.ExtTreeMap.ext_getElem? fun x => ?_
  simp only [getElem?_subst]
  cases h : env[x]? with
  | none => rfl
  | some σ => simp [Scheme.subst_eq]

theorem exists_of_mem_freeVars_subst {s : Subst} {env : Env} {b : TyVar}
    (hb : b ∈ (env.subst s).freeVars) : ∃ a ∈ env.freeVars, b ∈ (s.assignment a).freeVars := by
  obtain ⟨x, σ', hx, hb⟩ := mem_freeVars.1 hb
  rw [getElem?_subst, Option.map_eq_some_iff] at hx
  obtain ⟨σ, hx, rfl⟩ := hx
  obtain ⟨a, ha, hb⟩ := Scheme.exists_of_mem_freeVars_subst hb
  exact ⟨a, mem_freeVars.2 ⟨x, σ, hx, ha⟩, hb⟩

/-- Without capture, all that is put for free variables is free. -/
theorem NoCapture.mem_freeVars_subst_iff {s : Subst} {env : Env} (h : env.NoCapture s) {b : TyVar} :
    b ∈ (env.subst s).freeVars ↔ ∃ a ∈ env.freeVars, b ∈ (s.assignment a).freeVars := by
  refine ⟨exists_of_mem_freeVars_subst, fun ⟨a, ha, hb⟩ => ?_⟩
  obtain ⟨x, σ, hx, ha⟩ := mem_freeVars.1 ha
  exact mem_freeVars.2 ⟨x, σ.subst s, by simp [hx], σ.mem_freeVars_subst ha hb (h x σ hx a ha b hb)⟩

theorem mem_freeVars_insert {env : Env} {x : String} {σ : Scheme} {a : TyVar}
    (ha : a ∈ freeVars (env.insert x σ)) : a ∈ σ.freeVars ∨ a ∈ env.freeVars := by
  obtain ⟨y, σ', hy, ha⟩ := mem_freeVars.1 ha
  rw [Std.ExtTreeMap.getElem?_insert] at hy
  split at hy
  · obtain rfl := Option.some.inj hy
    exact .inl ha
  · exact .inr (mem_freeVars.2 ⟨y, σ', hy, ha⟩)

/-- The same names are bound, and each stands for no more types on the left than on the right. -/
def Le (θ : Assignment) (Γ : Env) (θ' : Assignment) (Γ' : Env) : Prop :=
  ∀ x : String, (Γ[x]? = none ∧ Γ'[x]? = none) ∨
    ∃ σ σ', Γ[x]? = some σ ∧ Γ'[x]? = some σ' ∧ Scheme.Le θ σ θ' σ'

namespace Le

theorem refl (θ : Assignment) (Γ : Env) : Le θ Γ θ Γ := by
  intro x
  cases hx : Γ[x]? with
  | none => exact .inl ⟨rfl, rfl⟩
  | some σ => exact .inr ⟨σ, σ, rfl, rfl, fun _ ht => ht⟩

theorem congr {θ θ' η η' : Assignment} {Γ Γ' : Env} (h : Le θ Γ θ' Γ')
    (hη : ∀ a ∈ Γ.freeVars, η a = θ a) (hη' : ∀ a ∈ Γ'.freeVars, θ' a = η' a) :
    Le η Γ η' Γ' := by
  intro x
  rcases h x with hx | ⟨σ, σ', hσ, hσ', hle⟩
  · exact .inl hx
  · refine .inr ⟨σ, σ', hσ, hσ', fun t ht => ?_⟩
    have ht := hle t (ht.congr fun a ha => hη a (mem_freeVars.2 ⟨x, σ, hσ, ha⟩))
    exact ht.congr fun a ha => hη' a (mem_freeVars.2 ⟨x, σ', hσ', ha⟩)

theorem insert {θ θ' : Assignment} {Γ Γ' : Env} (h : Le θ Γ θ' Γ') (x : String) {σ σ' : Scheme}
    (hσ : Scheme.Le θ σ θ' σ') : Le θ (Γ.insert x σ) θ' (Γ'.insert x σ') := by
  intro y
  simp only [Std.ExtTreeMap.getElem?_insert]
  split
  · exact .inr ⟨σ, σ', rfl, rfl, hσ⟩
  · exact h y

/-- A substitution in the right environment can be looked through. -/
theorem subst_right {θ θ' : Assignment} {s : Subst} {Γ Γ' : Env} (hs : Γ'.NoCapture s)
    (h : Le θ Γ (fun a => (s.assignment a).assign θ') Γ') : Le θ Γ θ' (Γ'.subst s) := by
  intro x
  rcases h x with ⟨hx, hx'⟩ | ⟨σ, σ', hσ, hσ', hle⟩
  · exact .inl ⟨hx, by simp [hx']⟩
  · refine .inr ⟨σ, σ'.subst s, hσ, by simp [hσ'], fun t ht => ?_⟩
    exact (Scheme.instanceUnder_subst (hs x σ' hσ')).2 (hle t ht)

/-- A substitution in the left environment can be looked through. -/
theorem subst_left {θ θ' : Assignment} {s : Subst} {Γ Γ' : Env} (hs : Γ.NoCapture s)
    (h : Le (fun a => (s.assignment a).assign θ) Γ θ' Γ') : Le θ (Γ.subst s) θ' Γ' := by
  intro x
  rcases h x with ⟨hx, hx'⟩ | ⟨σ, σ', hσ, hσ', hle⟩
  · exact .inl ⟨by simp [hx], hx'⟩
  · refine .inr ⟨σ.subst s, σ', by simp [hσ], hσ', fun t ht => ?_⟩
    exact hle t ((Scheme.instanceUnder_subst (hs x σ hσ)).1 ht)

/-- What is put for the free variables on the right comes from the left. -/
theorem freeVars {θ θ' : Assignment} {Γ Γ' : Env} (h : Le θ Γ θ' Γ') {a b : TyVar}
    (ha : a ∈ Γ'.freeVars) (hb : b ∈ (θ' a).freeVars) :
    ∃ a ∈ Γ.freeVars, b ∈ (θ a).freeVars := by
  obtain ⟨x, σ', hσ', ha⟩ := mem_freeVars.1 ha
  rcases h x with ⟨-, hx⟩ | ⟨σ, σ'', hσ, hx, hle⟩
  · rw [hσ'] at hx
    cases hx
  · rw [hσ'] at hx
    obtain rfl := Option.some.inj hx
    obtain ⟨t, ht, hvars⟩ := σ.exists_instanceUnder θ
    obtain ⟨c, hc, hb⟩ := hvars b ((hle t ht).mem_freeVars ha hb)
    exact ⟨c, mem_freeVars.2 ⟨x, σ, hσ, hc⟩, hb⟩

end Le

end Env

end LetPoly
