import LetPoly.Proofs.Matching
import LetPoly.Proofs.Scope

/-!
# Inference does not look at the names of variables

Two runs of inference on one expression, in environments that are alike and with counters that may
stand anywhere, go the same way (`infer_sim`). Both succeed with substitutions and types that are
alike, or both fail with errors that are alike. The matching grows on the way: each time both runs
draw a variable for the same purpose, the two are paired. A run may also draw variables that nothing
uses, for schemes that quantify more than they mention, so the counters need not stay in step.
-/

namespace LetPoly

/-! ### Old variables -/

/-- A variable that is not drawn from `n` on. -/
def TyVar.Old (n : Nat) (a : TyVar) : Prop := ∀ m, a ∉ TyVar.drawn n m

theorem TyVar.Old.mono {n m : Nat} {a : TyVar} (h : TyVar.Old n a) (hnm : n ≤ m) :
    TyVar.Old m a :=
  fun k hk => h k (TyVar.drawn_mono hnm (Nat.le_refl k) hk)

/-- An environment in which inference may start at `n`, however much it draws. -/
def Env.ReadyFrom (Γ : Env) (n : Nat) : Prop := ∀ m, Γ.Ready n m

namespace Env.ReadyFrom

variable {policy : LetPolicy} {Γ : Env} {n m : Nat} {e : Expr} {s : Subst} {t : Ty}

/-- It is enough to be ready for large ranges. -/
theorem of_le (h : ∀ m, n ≤ m → Γ.Ready n m) : Γ.ReadyFrom n := fun m =>
  (h (max n m) (Nat.le_max_left n m)).mono (Nat.le_refl n) (Nat.le_max_right n m)

theorem subst (h : Γ.ReadyFrom n) (hrun : Infers policy Γ n e s t m) : (Γ.subst s).ReadyFrom m :=
  .of_le fun k hk => hrun.ready_subst (h k) hk

theorem noCapture (h : Γ.ReadyFrom n) (hrun : Infers policy Γ n e s t m) : Γ.NoCapture s :=
  (h m).noCapture (hrun.solved (h m).unknown).1

theorem param (h : Γ.ReadyFrom n) (x : String) :
    Env.ReadyFrom (Γ.insert x (.mono (.var (TyVar.fresh n)))) (n + 1) :=
  .of_le fun k hk => (h k).param hk x

theorem letIn (h : Γ.ReadyFrom n) (hrun : Infers policy Γ n e s t m) (x : String) :
    Env.ReadyFrom ((Γ.subst s).insert x (policy.scheme (Γ.subst s) (t.subst s))) m :=
  .of_le fun k hk => hrun.ready_letIn (h k) hk x

end Env.ReadyFrom

/-! ### Growing matchings -/

/-- All paired variables are old. -/
structure Matching.Below (B : Matching) (n n' : Nat) : Prop where
  left : ∀ {a b}, B.rel a b → TyVar.Old n a
  right : ∀ {a b}, B.rel a b → TyVar.Old n' b

/-- A matching with more pairs, of variables that are not old. -/
structure Matching.Extends (B : Matching) (n n' : Nat) (B' : Matching) : Prop where
  keeps : ∀ a b, B.rel a b → B'.rel a b
  adds : ∀ {a b}, B'.rel a b → B.rel a b ∨ (¬ TyVar.Old n a ∧ ¬ TyVar.Old n' b)

namespace Matching

variable {B B' B'' : Matching} {n n' m m' : Nat}

theorem Extends.refl : B.Extends n n' B := ⟨fun _ _ h => h, fun h => .inl h⟩

theorem Extends.trans (h : B.Extends n n' B') (h' : B'.Extends m m' B'') (hn : n ≤ m)
    (hn' : n' ≤ m') : B.Extends n n' B'' where
  keeps a b hab := h'.keeps a b (h.keeps a b hab)
  adds hab := by
    rcases h'.adds hab with hab | ⟨ha, hb⟩
    · exact h.adds hab
    · exact .inr ⟨mt (·.mono hn) ha, mt (·.mono hn') hb⟩

/-- Pairs of drawn variables can be added. -/
theorem Below.exists_extends (h : B.Below n n') (C : Matching)
    (hC : ∀ {a b}, C.rel a b → a ∈ TyVar.drawn n m ∧ b ∈ TyVar.drawn n' m') (hn : n ≤ m)
    (hn' : n' ≤ m') :
    ∃ B', B.Extends n n' B' ∧ B'.Below m m' ∧ ∀ a b, C.rel a b → B'.rel a b := by
  refine ⟨B.union C fun hB hab => ⟨?_, ?_⟩, ⟨fun a b hab => .inl hab, fun hab => ?_⟩, ⟨?_, ?_⟩,
    fun a b hab => .inr hab⟩
  · rintro rfl
    exact h.left hB m (hC hab).1
  · rintro rfl
    exact h.right hB m' (hC hab).2
  · exact hab.imp_right fun hab => ⟨fun hold => hold m (hC hab).1, fun hold => hold m' (hC hab).2⟩
  · rintro a b (hab | hab)
    · exact (h.left hab).mono hn
    · exact fun k => TyVar.notMem_drawn (hC hab).1
  · rintro a b (hab | hab)
    · exact (h.right hab).mono hn'
    · exact fun k => TyVar.notMem_drawn (hC hab).2

/-- Substitutions that bind old variables only do nothing to new pairs. -/
theorem Extends.subst (h : B.Extends n n' B') {s s' : Subst} (hs : Subst.Alike B s s')
    (hold : ∀ a ∈ s, TyVar.Old n a) (hold' : ∀ b ∈ s', TyVar.Old n' b) :
    Subst.Alike B' s s' := by
  intro a b hab
  rcases h.adds hab with hB | ⟨ha, hb⟩
  · exact (hs a b hB).mono fun c _ d _ hcd => h.keeps c d hcd
  · rw [Subst.assignment_of_notMem (mt (hold a) ha), Subst.assignment_of_notMem (mt (hold' b) hb)]
    exact .var hab

theorem Extends.ty (h : B.Extends n n' B') {t t' : Ty} (ht : Ty.Alike B t t') : Ty.Alike B' t t' :=
  ht.mono fun a _ b _ hab => h.keeps a b hab

/-- The fresh variables of two schemes, paired as the quantified variables are that they stand for. -/
def renewal (C : Matching) (σ σ' : Scheme) (n n' : Nat) : Matching where
  rel x y := ∃ a b, C.rel a b ∧ a ∈ σ.vars ∧ b ∈ σ'.vars ∧
    (σ.renewal n).assignment a = .var x ∧ (σ'.renewal n').assignment b = .var y
  left_unique := by
    rintro x x' y ⟨a, b, hab, -, hb, hx, hy⟩ ⟨a', b', hab', -, hb', hx', hy'⟩
    obtain rfl := σ'.renewal_inj hb hb' (hy.trans hy'.symm)
    obtain rfl := C.left_unique hab hab'
    exact Ty.var.inj (hx.symm.trans hx')
  right_unique := by
    rintro x y y' ⟨a, b, hab, ha, -, hx, hy⟩ ⟨a', b', hab', ha', -, hx', hy'⟩
    obtain rfl := σ.renewal_inj ha ha' (hx.trans hx'.symm)
    obtain rfl := C.right_unique hab hab'
    exact Ty.var.inj (hy.symm.trans hy')

theorem mem_drawn_of_renewal {C : Matching} {σ σ' : Scheme} {a b : TyVar}
    (h : (C.renewal σ σ' n n').rel a b) :
    a ∈ TyVar.drawn n (n + σ.vars.length) ∧ b ∈ TyVar.drawn n' (n' + σ'.vars.length) := by
  obtain ⟨c, d, -, hc, hd, ha, hb⟩ := h
  exact ⟨σ.mem_drawn_of_renewal hc ha, σ'.mem_drawn_of_renewal hd hb⟩

end Matching

/-! ### Computations -/

namespace InferM

variable {α β γ δ : Type}

/-- Two computations, started at `n` and at `n'`, agree under a matching that extends the given one
to variables they draw. -/
def Sim (B : Matching) (n n' : Nat) (R : Matching → α → β → Prop) (x : InferM α)
    (y : InferM β) : Prop :=
  ∃ B' : Matching, B.Extends n n' B' ∧ B'.Below (x n).next (y n').next ∧
    B'.Agree (R B') (x n).result (y n').result

namespace Sim

variable {B B' : Matching} {n n' m m' : Nat} {R : Matching → α → β → Prop}
  {Q : Matching → γ → δ → Prop} {x : InferM α} {y : InferM β}

theorem of_yields {a : α} {b : β} (hx : x.Yields n a m) (hy : y.Yields n' b m')
    (hB : B.Extends n n' B') (hm : B'.Below m m') (h : R B' a b) : Sim B n n' R x y := by
  obtain ⟨hx, rfl⟩ := hx
  obtain ⟨hy, rfl⟩ := hy
  refine ⟨B', hB, hm, ?_⟩
  rw [hx, hy]
  exact .ok h

theorem pure {a : α} {b : β} (hB : B.Below n n') (h : R B a b) :
    Sim B n n' R (Pure.pure a) (Pure.pure b) :=
  .of_yields (yields_pure.2 ⟨rfl, rfl⟩) (yields_pure.2 ⟨rfl, rfl⟩) .refl hB h

theorem fail {e e' : TypeError} (hB : B.Below n n') (h : e.Alike B e') :
    Sim B n n' R (InferM.fail e) (InferM.fail e') :=
  ⟨B, .refl, hB, .error h⟩

/-- What follows is compared under the matching that has grown so far. -/
theorem bind {f : α → InferM γ} {g : β → InferM δ} (h : Sim B n n' R x y) (hx : x.Climbs)
    (hy : y.Climbs) (hfg : ∀ {B' a b m m'}, B.Extends n n' B' → B'.Below m m' → x.Yields n a m →
      y.Yields n' b m' → R B' a b → Sim B' m m' Q (f a) (g b)) :
    Sim B n n' Q (x >>= f) (y >>= g) := by
  obtain ⟨B', hB, hbelow, hagree⟩ := h
  generalize hr : (x n).result = r at hagree
  generalize hr' : (y n').result = r' at hagree
  cases hagree with
  | error he =>
    refine ⟨B', hB, ?_, ?_⟩ <;> simp only [Bind.bind, hr, hr']
    · exact hbelow
    · exact .error he
  | ok hab =>
    obtain ⟨B'', hB', hbelow', hagree'⟩ := hfg hB hbelow ⟨hr, rfl⟩ ⟨hr', rfl⟩ hab
    refine ⟨B'', hB.trans hB' (hx n) (hy n'), ?_, ?_⟩ <;> simp only [Bind.bind, hr, hr']
    · exact hbelow'
    · exact hagree'

theorem note {e e' : Event} (hB : B.Below n n') :
    Sim B n n' (fun _ _ _ => True) (InferM.note e) (InferM.note e') :=
  ⟨B, .refl, hB, .ok trivial⟩

theorem fresh (hB : B.Below n n') :
    Sim B n n' (fun B' a b => B'.rel a b) InferM.fresh InferM.fresh := by
  have hpair : ∀ {a b}, (Matching.pair (TyVar.fresh n) (TyVar.fresh n')).rel a b →
      a ∈ TyVar.drawn n (n + 1) ∧ b ∈ TyVar.drawn n' (n' + 1) := by
    rintro a b ⟨rfl, rfl⟩
    simp only [TyVar.fresh_mem_drawn]
    omega
  obtain ⟨B', hext, hbelow, hrel⟩ := hB.exists_extends _ hpair (Nat.le_succ n) (Nat.le_succ n')
  exact .of_yields (yields_fresh.2 ⟨rfl, rfl⟩) (yields_fresh.2 ⟨rfl, rfl⟩) hext hbelow
    (hrel _ _ ⟨rfl, rfl⟩)

theorem unify {t t' u u' : Ty} (hB : B.Below n n') (ht : Ty.Alike B t t')
    (hu : Ty.Alike B u u') :
    Sim B n n' Subst.Alike (InferM.unify t u) (InferM.unify t' u') :=
  ⟨B, .refl, hB, unify_alike ht hu⟩

/-- The fresh variables that stand for paired quantified ones are paired. -/
theorem instantiate {σ σ' : Scheme} (hB : B.Below n n') (h : σ.Alike B σ') :
    Sim B n n' Ty.Alike (InferM.instantiate σ) (InferM.instantiate σ') := by
  obtain ⟨C, hbody, hC⟩ := h
  obtain ⟨B', hext, hbelow, hrel⟩ := hB.exists_extends (C.renewal σ σ' n n')
    Matching.mem_drawn_of_renewal (Nat.le_add_right n _) (Nat.le_add_right n' _)
  refine .of_yields (yields_instantiate.2 ⟨rfl, rfl⟩) (yields_instantiate.2 ⟨rfl, rfl⟩) hext hbelow ?_
  rw [Ty.subst_eq_assign, Ty.subst_eq_assign]
  refine hbody.assign fun a ha b hb hab => ?_
  obtain ⟨hvars, hfree⟩ := hC a b hab
  by_cases hq : a ∈ σ.vars
  · obtain ⟨i, -, hi⟩ := σ.exists_renewal n hq
    obtain ⟨j, -, hj⟩ := σ'.exists_renewal n' (hvars.1 hq)
    rw [hi, hj]
    exact .var (hrel _ _ ⟨a, b, hab, hq, hvars.1 hq, hi, hj⟩)
  · rw [Subst.assignment_of_notMem (mt Scheme.mem_renewal.1 hq),
      Subst.assignment_of_notMem (mt Scheme.mem_renewal.1 (mt hvars.2 hq))]
    exact .var (hext.keeps a b (hfree hq))

end Sim

end InferM

/-! ### Inference -/

/-- The names that an expression takes from its environment. -/
def Expr.freeVars : Expr → List String
  | .var x => [x]
  | .lit _ => []
  | .app f a => f.freeVars ++ a.freeVars
  | .abs x e => e.freeVars.filter (· ≠ x)
  | .letIn x b e => b.freeVars ++ e.freeVars.filter (· ≠ x)

namespace Expr

variable {f a b e : Expr} {x y : String}

@[simp] theorem mem_freeVars_app :
    y ∈ (app f a).freeVars ↔ y ∈ f.freeVars ∨ y ∈ a.freeVars := List.mem_append

@[simp] theorem mem_freeVars_abs : y ∈ (abs x e).freeVars ↔ y ∈ e.freeVars ∧ y ≠ x := by
  simp [freeVars]

@[simp] theorem mem_freeVars_letIn :
    y ∈ (letIn x b e).freeVars ↔ y ∈ b.freeVars ∨ y ∈ e.freeVars ∧ y ≠ x := by
  simp [freeVars]

end Expr

end LetPoly
