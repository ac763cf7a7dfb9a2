import LetPoly.Proofs.Inlining

/-!
# The names of bound variables do not matter

Expressions that differ only in how parameters and `let`s are called are inferred the same way to the
letter: the same substitution, type and counter, or the same error (`infer_alpha`). What could make a
difference is an environment that already binds the name. A binder hides it, and with it the type
variables that are free there and nowhere else, and a `let` looks at the free variables of the whole
environment to decide what to generalize.

It makes none, because a run depends on the names that the expression uses and on nothing else. It is
also a run in the part of the environment that binds them (`Env.part`), so its substitution and its
type stay within the free variables of that part and what is drawn. Which variables of the type are
free in the environment is then decided there (`Infers.mem_freeVars_subst_iff`). The induction proves
the two together: at a `let`, the bound expression is compared with its renaming, and with itself in
the part that it uses.
-/

namespace LetPoly

/-! ### Expressions up to the names of binders -/

/-- Which names on the left stand for which on the right. -/
abbrev Pairing := String → String → Prop

/-- Below a binder of `x` on the left and of `x'` on the right, these are a pair, and what they were
paired with is hidden. -/
def Pairing.under (R : Pairing) (x x' : String) : Pairing := fun y y' =>
  (y = x ∧ y' = x') ∨ (y ≠ x ∧ y' ≠ x' ∧ R y y')

namespace Pairing

variable {R : Pairing} {x x' y : String}

/-- A name is paired with itself below a binder of one name if it is so outside or is that name. -/
theorem under_self (h : y ≠ x → R y y) : R.under x x y y := by
  by_cases hyx : y = x
  · exact .inl ⟨hyx, hyx⟩
  · exact .inr ⟨hyx, hyx, h hyx⟩

/-- A name that is not hidden is paired outside too. -/
theorem exists_of_under (hyx : y ≠ x) (h : ∃ y', R.under x x' y y') : ∃ y', R y y' := by
  obtain ⟨y', ⟨hy, -⟩ | ⟨-, -, hR⟩⟩ := h
  · exact absurd hy hyx
  · exact ⟨y', hR⟩

end Pairing

namespace Expr

/-- Expressions of one form whose variables are paired, be it by their binders or, if they are free, by
the given pairing. -/
inductive Alpha : Pairing → Expr → Expr → Prop where
  | var {R : Pairing} {x x' : String} : R x x' → Alpha R (.var x) (.var x')
  | lit {R : Pairing} (l : Literal) : Alpha R (.lit l) (.lit l)
  | app {R : Pairing} {f f' a a' : Expr} : Alpha R f f' → Alpha R a a' →
    Alpha R (.app f a) (.app f' a')
  | abs {R : Pairing} {x x' : String} {e e' : Expr} : Alpha (R.under x x') e e' →
    Alpha R (.abs x e) (.abs x' e')
  | letIn {R : Pairing} {x x' : String} {b b' e e' : Expr} : Alpha R b b' →
    Alpha (R.under x x') e e' → Alpha R (.letIn x b e) (.letIn x' b' e')

variable {R : Pairing} {x y z : String} {e e' : Expr}

/-- An expression is paired with itself if its free names are. -/
theorem Alpha.refl (e : Expr) (h : ∀ y ∈ e.freeVars, R y y) : Alpha R e e := by
  induction e generalizing R with
  | var x => exact .var (h x (by simp [freeVars]))
  | lit l => exact .lit l
  | app f a ihf iha =>
    exact .app (ihf fun y hy => h y (mem_freeVars_app.2 (.inl hy)))
      (iha fun y hy => h y (mem_freeVars_app.2 (.inr hy)))
  | abs x e ih =>
    exact .abs (ih fun y hy => Pairing.under_self fun hyx => h y (mem_freeVars_abs.2 ⟨hy, hyx⟩))
  | letIn x b e ihb ihe =>
    refine .letIn (ihb fun y hy => h y (mem_freeVars_letIn.2 (.inl hy))) (ihe fun y hy => ?_)
    exact Pairing.under_self fun hyx => h y (mem_freeVars_letIn.2 (.inr ⟨hy, hyx⟩))

/-- Each free name on the left stands for one on the right. -/
theorem Alpha.exists_pair (h : Alpha R e e') (hy : y ∈ e.freeVars) : ∃ y', R y y' := by
  induction h with
  | @var R x x' hx =>
    obtain rfl : y = x := by simpa [freeVars] using hy
    exact ⟨x', hx⟩
  | lit l => simp [freeVars] at hy
  | app _ _ ihf iha => exact (mem_freeVars_app.1 hy).elim ihf iha
  | abs _ ih =>
    obtain ⟨hy, hyx⟩ := mem_freeVars_abs.1 hy
    exact Pairing.exists_of_under hyx (ih hy)
  | letIn _ _ ihb ihe =>
    rcases mem_freeVars_letIn.1 hy with hy | ⟨hy, hyx⟩
    · exact ihb hy
    · exact Pairing.exists_of_under hyx (ihe hy)

/-- All names in an expression, free or not. -/
def names : Expr → List String
  | .var x => [x]
  | .lit _ => []
  | .app f a => f.names ++ a.names
  | .abs x e => x :: e.names
  | .letIn x b e => x :: (b.names ++ e.names)

/-- What stands below a binder of `z`, where `x` may be bound anew. -/
theorem Alpha.under_binder (hzy : z ≠ y) (hxy : R x y)
    (h : ∀ w ∈ e.freeVars, w ≠ z → w ≠ x → R w w)
    (ih : ∀ {R : Pairing}, R x y → (∀ w ∈ e.freeVars, w ≠ x → R w w) →
      Alpha R e (e.inline x (.var y))) :
    Alpha (R.under z z) e (if z = x then e else e.inline x (.var y)) := by
  split
  · rename_i hzx
    exact .refl e fun w hw => Pairing.under_self fun hwz => h w hw hwz (hzx ▸ hwz)
  · rename_i hzx
    -- `z` is neither of the two, so they are still a pair
    refine ih (.inr ⟨Ne.symm hzx, hzy.symm, hxy⟩) fun w hw hwx => ?_
    exact Pairing.under_self fun hwz => h w hw hwz hwx

/-- A name that does not occur may be put for `x` if the two are a pair and other names are paired with
themselves. -/
theorem Alpha.inline (hy : y ∉ e.names) (hxy : R x y) (h : ∀ w ∈ e.freeVars, w ≠ x → R w w) :
    Alpha R e (e.inline x (.var y)) := by
  induction e generalizing R with
  | var z =>
    rw [Expr.inline]
    split
    · rename_i hzx
      exact .var (hzx ▸ hxy)
    · rename_i hzx
      exact .var (h z (by simp [freeVars]) hzx)
  | lit l => exact .lit l
  | app f a ihf iha =>
    obtain ⟨hf, ha⟩ := not_or.1 (mt List.mem_append.2 hy)
    exact .app (ihf hf hxy fun w hw => h w (mem_freeVars_app.2 (.inl hw)))
      (iha ha hxy fun w hw => h w (mem_freeVars_app.2 (.inr hw)))
  | abs z e ih =>
    obtain ⟨hyz, he⟩ := not_or.1 (mt List.mem_cons.2 hy)
    refine .abs (.under_binder (Ne.symm hyz) hxy (fun w hw hwz => ?_) fun hR => ih he hR)
    exact h w (mem_freeVars_abs.2 ⟨hw, hwz⟩)
  | letIn z d e ihd ihe =>
    obtain ⟨hyz, hde⟩ := not_or.1 (mt List.mem_cons.2 hy)
    obtain ⟨hd, he⟩ := not_or.1 (mt List.mem_append.2 hde)
    refine .letIn (ihd hd hxy fun w hw => h w (mem_freeVars_letIn.2 (.inl hw)))
      (.under_binder (Ne.symm hyz) hxy (fun w hw hwz => ?_) fun hR => ihe he hR)
    exact h w (mem_freeVars_letIn.2 (.inr ⟨hw, hwz⟩))

/-- What is paired wherever each name is paired with itself, is so inside other expressions. -/
theorem Alpha.fill (h : ∀ {R : Pairing}, (∀ z, R z z) → Alpha R e e') (C : Context)
    (hR : ∀ z, R z z) : Alpha R (C.fill e) (C.fill e') := by
  have hunder : ∀ {R : Pairing} (x : String), (∀ z, R z z) → ∀ z, R.under x x z z :=
    fun x hR z => Pairing.under_self fun _ => hR z
  induction C generalizing R with
  | hole => exact h hR
  | callee C a ih => exact .app (ih hR) (.refl a fun z _ => hR z)
  | argument f C ih => exact .app (.refl f fun z _ => hR z) (ih hR)
  | abs x C ih => exact .abs (ih (hunder x hR))
  | bound x C d ih => exact .letIn (ih hR) (.refl d fun z _ => hunder x hR z)
  | body x b C ih => exact .letIn (.refl b fun z _ => hR z) (ih (hunder x hR))

end Expr

/-! ### The part of an environment that is used -/

namespace Env

variable {Γ Γ' Δ : Env} {R : Pairing} {n m : Nat}

/-- What an environment has for some names. -/
def part (Γ : Env) (used : List String) : Env := Γ.filter fun x _ => x ∈ used

theorem getElem?_part {used : List String} {x : String} (hx : x ∈ used) :
    (Γ.part used)[x]? = Γ[x]? := by
  rw [part, Std.ExtTreeMap.getElem?_filter']
  cases Γ[x]? <;> simp [Option.filter, hx]

theorem of_getElem?_part {used : List String} {x : String} {σ : Scheme}
    (h : (Γ.part used)[x]? = some σ) : x ∈ used ∧ Γ[x]? = some σ := by
  rw [part, Std.ExtTreeMap.getElem?_filter', Option.filter_eq_some_iff] at h
  exact ⟨by simpa using h.2, h.1⟩

theorem mem_freeVars_of_part {used : List String} {a : TyVar} (h : a ∈ (Γ.part used).freeVars) :
    a ∈ Γ.freeVars := by
  obtain ⟨x, σ, hx, ha⟩ := mem_freeVars.1 h
  exact mem_freeVars.2 ⟨x, σ, (of_getElem?_part hx).2, ha⟩

/-- The scope of a run is larger in a larger environment. -/
theorem mem_scope_of_part (hΔ : ∀ a ∈ Δ.freeVars, a ∈ Γ.freeVars) {a : TyVar}
    (ha : a ∈ Δ.scope n m) : a ∈ Γ.scope n m :=
  mem_scope.2 ((mem_scope.1 ha).imp_left (hΔ a))

theorem Ready.part (h : Γ.Ready n m) (used : List String) : (Γ.part used).Ready n m where
  unknown a ha := h.unknown a (mem_freeVars_of_part ha)
  apart x σ hx hσ q hq hmem :=
    h.apart x σ (of_getElem?_part hx).2 hσ q hq
      (mem_scope_of_part (fun _ => mem_freeVars_of_part) hmem)

/-- Paired names stand for the same scheme, or for nothing and are one name. -/
def Shares (R : Pairing) (Γ Γ' : Env) : Prop :=
  ∀ x x', R x x' → Γ[x]? = Γ'[x']? ∧ (Γ[x]? = none → x = x')

namespace Shares

theorem insert (h : Shares R Γ Γ') (x x' : String) (σ : Scheme) :
    Shares (R.under x x') (Γ.insert x σ) (Γ'.insert x' σ) := by
  rintro y y' (⟨rfl, rfl⟩ | ⟨hy, hy', hR⟩)
  · simp
  · have hne : compare x y ≠ .eq := by simpa using hy.symm
    have hne' : compare x' y' ≠ .eq := by simpa using hy'.symm
    rw [Std.ExtTreeMap.getElem?_insert, Std.ExtTreeMap.getElem?_insert, if_neg hne, if_neg hne']
    exact h y y' hR

theorem subst (h : Shares R Γ Γ') (s : Subst) : Shares R (Γ.subst s) (Γ'.subst s) := by
  intro x x' hR
  obtain ⟨heq, hnone⟩ := h x x' hR
  simp only [getElem?_subst, heq, true_and, Option.map_eq_none_iff]
  exact heq ▸ hnone

/-- An environment and the part of it that an expression uses. -/
theorem part (Γ : Env) (used : List String) :
    Shares (fun x x' => x = x' ∧ x ∈ used) Γ (Γ.part used) := by
  rintro x _ ⟨rfl, hx⟩
  exact ⟨(getElem?_part hx).symm, fun _ => rfl⟩

/-- What is free in the part that is used, is free on the other side. -/
theorem mem_freeVars_of_part (h : Shares R Γ Γ') {e e' : Expr} (he : e.Alpha R e') {a : TyVar}
    (ha : a ∈ (Γ.part e.freeVars).freeVars) : a ∈ Γ'.freeVars := by
  obtain ⟨x, σ, hx, ha⟩ := mem_freeVars.1 ha
  obtain ⟨hused, hx⟩ := of_getElem?_part hx
  obtain ⟨x', hR⟩ := he.exists_pair hused
  exact mem_freeVars.2 ⟨x', σ, (h x x' hR).1 ▸ hx, ha⟩

end Shares

end Env

namespace Infers

variable {policy : LetPolicy} {Γ Γ' Δ : Env} {n m : Nat} {e : Expr} {s : Subst} {t : Ty}

/-- Let a run be possible in a part `Δ` of an environment already. Which variables of its type are free
in the environment that it leaves is decided by the free variables of `Δ`. -/
theorem mem_freeVars_subst_iff (h : Infers policy Δ n e s t m) (hΓ : Γ.Ready n m)
    (hΔ : ∀ a ∈ Δ.freeVars, a ∈ Γ.freeVars) {a : TyVar} (ha : a ∈ t.freeVars) :
    a ∈ (Γ.subst s).freeVars ↔ ∃ c ∈ Δ.freeVars, a ∈ (s.assignment c).freeVars := by
  have hunknown : Δ.Unknown n m := fun c hc => hΓ.unknown c (hΔ c hc)
  obtain ⟨hs, ht⟩ := h.solved hunknown
  have hcap := hΓ.noCapture (hs.mono fun _ => Env.mem_scope_of_part hΔ)
  rw [hcap.mem_freeVars_subst_iff]
  constructor
  · rintro ⟨c, hc, hac⟩
    -- whether it is replaced or not, `c` is in the scope of the run, and it is not drawn
    have hscope : c ∈ Δ.scope n m := by
      by_cases hcs : c ∈ s
      · exact hs.mem_of_bound c hcs
      · rw [Subst.assignment_of_notMem hcs] at hac
        obtain rfl : a = c := by simpa using hac
        exact (ht a ha).1
    exact ⟨c, (Env.mem_scope.1 hscope).resolve_right (hΓ.unknown c hc), hac⟩
  · rintro ⟨c, hc, hac⟩
    exact ⟨c, hΔ c hc, hac⟩

end Infers

/-! ### Inference -/

namespace InferM

variable {α β : Type} {n : Nat}

/-- Two computations, started at `n`, have the same result and leave the same counter. The log, which
shows names, may differ. -/
def SameAt (n : Nat) (x y : InferM α) : Prop := (x n).result = (y n).result ∧ (x n).next = (y n).next

theorem SameAt.refl (x : InferM α) : SameAt n x x := ⟨rfl, rfl⟩

theorem SameAt.bind {x y : InferM α} {f g : α → InferM β} (h : SameAt n x y)
    (hfg : ∀ {a m}, x.Yields n a m → SameAt m (f a) (g a)) : SameAt n (x >>= f) (y >>= g) := by
  obtain ⟨hresult, hnext⟩ := h
  simp only [SameAt, Bind.bind, ← hresult, ← hnext]
  cases hr : (x n).result with
  | error err => exact ⟨rfl, rfl⟩
  | ok a => exact hfg ⟨hr, rfl⟩

end InferM

end LetPoly
