import LetPoly.Proofs.NestedLets

/-!
# What a check generalizes

Every statement of an accepted program was inferred in the environment that the statements before it
leave, and its type was generalized there (`check_infers`). That environment is the one from before
the run: what the run substitutes for its free variables is not looked at. In a closed environment
there is nothing to look at. In an open one a statement may refine a free variable to a type with
variables that the run has drawn, and if its own type shares one of them, that variable is quantified
although it is now free in the environment (`Env.mem_vars_and_refined_iff`).
-/

namespace LetPoly

/-- The environment after statements with given judgements. -/
def Env.after (Γ : Env) (js : List Judgement) : Env :=
  js.foldl (fun Γ j => Γ.define j.name j.scheme) Γ

theorem Env.after_cons (Γ : Env) (j : Judgement) (js : List Judgement) :
    Γ.after (j :: js) = (Γ.define j.name j.scheme).after js := rfl

open InferM in
theorem exists_of_inferType {policy : LetPolicy} {Γ : Env} {e : Expr} {u : Ty}
    (h : (inferType policy Γ e).result = .ok u) :
    ∃ r t m, (infer policy Γ e).Yields Γ.firstFresh (r, t) m ∧ t.subst r = u := by
  have hyields : Yields (infer policy Γ e >>= fun r => pure (r.2.subst r.1)) Γ.firstFresh u
      (inferType policy Γ e).next := ⟨h, rfl⟩
  simp only [yields_bind, yields_pure] at hyields
  obtain ⟨⟨r, t⟩, m, hrun, hu, -⟩ := hyields
  exact ⟨r, t, m, hrun, hu⟩

/-- A check that accepts a statement and those after it. -/
theorem check_cons_ok_iff {policy : LetPolicy} {Γ : Env} {s : Located Statement}
    {ss : List (Located Statement)} {js : List Judgement} :
    (check policy Γ (s :: ss)).result = .ok js ↔
      ∃ t more, (inferType policy Γ s.val.expr).result = .ok t ∧
        (check policy (Γ.define s.val.name (Γ.generalize t)) ss).result = .ok more ∧
        js = ⟨s.val.name, Γ.generalize t⟩ :: more := by
  rw [result_check_cons]
  cases (inferType policy Γ s.val.expr).result with
  | error e => simp
  | ok t =>
    cases hrest : (check policy (Γ.define s.val.name (Γ.generalize t)) ss).result with
    | error e => simp [hrest, Except.map]
    | ok more => simp [hrest, Except.map, eq_comm]

theorem length_check {policy : LetPolicy} {ss : List (Located Statement)} {Γ : Env}
    {js : List Judgement} (hok : (check policy Γ ss).result = .ok js) : js.length = ss.length := by
  induction ss generalizing Γ js with
  | nil =>
    obtain rfl := Except.ok.inj hok
    rfl
  | cons s ss ih =>
    obtain ⟨t, more, -, hrest, rfl⟩ := check_cons_ok_iff.1 hok
    rw [List.length_cons, List.length_cons, ih hrest]

/-- Each statement of an accepted program was inferred in the environment that those before it leave,
and its judgement is the type found, generalized in that environment. -/
theorem check_infers {policy : LetPolicy} {ss : List (Located Statement)} {Γ : Env}
    {js : List Judgement} (hok : (check policy Γ ss).result = .ok js) {i : Nat}
    {s : Located Statement} (hs : ss[i]? = some s) :
    ∃ t, (inferType policy (Γ.after (js.take i)) s.val.expr).result = .ok t ∧
      js[i]? = some ⟨s.val.name, (Γ.after (js.take i)).generalize t⟩ := by
  induction ss generalizing Γ js i with
  | nil => simp at hs
  | cons first ss ih =>
    obtain ⟨t, more, hrun, hrest, rfl⟩ := check_cons_ok_iff.1 hok
    cases i with
    | zero =>
      obtain rfl : first = s := by simpa using hs
      exact ⟨t, hrun, rfl⟩
    | succ i =>
      rw [List.take_succ_cons, Env.after_cons]
      exact ih hrest hs

theorem check_judges {policy : LetPolicy} {ss : List (Located Statement)} {Γ : Env}
    {js : List Judgement} (hok : (check policy Γ ss).result = .ok js) {i : Nat}
    {s : Located Statement} (hs : ss[i]? = some s) :
    ∃ r t m, (infer policy (Γ.after (js.take i)) s.val.expr).Yields
        (Γ.after (js.take i)).firstFresh (r, t) m ∧
      js[i]? = some ⟨s.val.name, (Γ.after (js.take i)).generalize (t.subst r)⟩ := by
  obtain ⟨u, hrun, hj⟩ := check_infers hok hs
  obtain ⟨r, t, m, hyields, rfl⟩ := exists_of_inferType hrun
  exact ⟨r, t, m, hyields, hj⟩

/-! ### Refined environments -/

namespace Env

/-- A name that nothing quantifies is free in a substituted environment exactly if it comes with what
is put for a free variable. -/
theorem mem_freeVars_subst_iff {Γ : Env} {s : Subst} {q : TyVar} (hq : q ∉ Γ.quantified) :
    q ∈ (Γ.subst s).freeVars ↔ ∃ a ∈ Γ.freeVars, q ∈ (s.assignment a).freeVars := by
  constructor
  · exact exists_of_mem_freeVars_subst
  · rintro ⟨a, ha, hqa⟩
    obtain ⟨x, σ, hx, ha⟩ := mem_freeVars.1 ha
    refine mem_freeVars.2 ⟨x, σ.subst s, by simp [hx], σ.mem_freeVars_subst ha hqa fun h => hq ?_⟩
    exact List.mem_flatMap.2 ⟨σ, mem_schemes.2 ⟨x, hx⟩, h⟩

/-- What is drawn from the first fresh number on, nothing quantifies. -/
theorem drawn_notMem_quantified {Γ : Env} {m : Nat} (hm : m ≤ TyVar.maxNumber) {q : TyVar}
    (hq : q ∈ TyVar.drawn Γ.firstFresh m) : q ∉ Γ.quantified := by
  intro hmem
  obtain ⟨σ, hσ, hvars⟩ := List.mem_flatMap.1 hmem
  obtain ⟨x, hx⟩ := mem_schemes.1 hσ
  exact names_notMem_drawn hm hx (List.mem_append_left _ hvars) hq

/-- The variables that are quantified in the type of a run although they are free in the environment
under its substitution: those it has drawn, uses in the type and puts for a free variable. -/
theorem mem_vars_and_refined_iff {policy : LetPolicy} {Γ : Env} {e : Expr} {r : Subst} {t : Ty}
    {m : Nat} (hrun : Infers policy Γ Γ.firstFresh e r t m) (hm : m ≤ TyVar.maxNumber)
    {q : TyVar} : q ∈ (Γ.generalize (t.subst r)).vars ∧ q ∈ (Γ.subst r).freeVars ↔
      q ∈ TyVar.drawn Γ.firstFresh m ∧ q ∈ t.freeVars ∧
        ∃ a ∈ Γ.freeVars, q ∈ (r.assignment a).freeVars := by
  have hnew := Γ.unknown_firstFresh hm
  obtain ⟨-, ht⟩ := hrun.solved hnew
  rw [Ty.subst_eq_self fun a ha => (ht a ha).2, mem_vars_generalize]
  constructor
  · rintro ⟨⟨hqt, hqΓ⟩, hrefined⟩
    have hdrawn := (mem_scope.1 (ht q hqt).1).resolve_left hqΓ
    exact ⟨hdrawn, hqt, (mem_freeVars_subst_iff (drawn_notMem_quantified hm hdrawn)).1 hrefined⟩
  · rintro ⟨hdrawn, hqt, hrefined⟩
    refine ⟨⟨hqt, fun hqΓ => hnew q hqΓ hdrawn⟩, ?_⟩
    exact (mem_freeVars_subst_iff (drawn_notMem_quantified hm hdrawn)).2 hrefined

end Env

/-- **When a statement is generalized soundly.** Each statement of an accepted program was inferred in
the environment that those before it leave. Its scheme quantifies no variable that is free there under
the run's substitution, exactly when the substitution puts no drawn variable of the statement's type
for a free variable of that environment. The counter must not run over its 32 bits. -/
theorem check_generalizes_soundly_iff (policy : LetPolicy) (env : Env)
    (ss : List (Located Statement)) (js : List Judgement)
    (hok : (check policy env ss).result = .ok js) (i : Nat) (s : Located Statement)
    (hs : ss[i]? = some s)
    (hcount : (infer policy (env.after (js.take i)) s.val.expr
      (env.after (js.take i)).firstFresh).next ≤ TyVar.maxNumber) :
    let Γ := env.after (js.take i)
    ∃ r t m σ, (infer policy Γ s.val.expr).Yields Γ.firstFresh (r, t) m ∧
      js[i]? = some ⟨s.val.name, σ⟩ ∧
      ((∀ q ∈ σ.vars, q ∉ (Γ.subst r).freeVars) ↔
        ∀ q ∈ TyVar.drawn Γ.firstFresh m, q ∈ t.freeVars →
          ∀ a ∈ Γ.freeVars, q ∉ (r.assignment a).freeVars) := by
  intro Γ
  obtain ⟨r, t, m, hyields, hj⟩ := check_judges hok hs
  refine ⟨r, t, m, _, hyields, hj, ?_⟩
  have hwrong := fun q => Env.mem_vars_and_refined_iff (q := q) (infer_yields_iff.1 hyields)
    (hyields.2 ▸ hcount)
  constructor
  · intro hsound q hdrawn hqt a ha hqa
    obtain ⟨hvars, hrefined⟩ := (hwrong q).2 ⟨hdrawn, hqt, a, ha, hqa⟩
    exact hsound q hvars hrefined
  · intro hapart q hvars hrefined
    obtain ⟨hdrawn, hqt, a, ha, hqa⟩ := (hwrong q).1 ⟨hvars, hrefined⟩
    exact hapart q hdrawn hqt a ha hqa

/-- `let k = \y -> x; k` where the type of `x` is a free variable: it stays free in both schemes. -/
theorem check_generalizes_soundly_const :
    let env : Env := .ofList [("x", .mono (.var "u0"))]
    let ss : List (Located Statement) :=
      [⟨⟨some "k", .abs "y" (.var "x")⟩, ⟨0, 15⟩⟩, ⟨⟨none, .var "k"⟩, ⟨17, 18⟩⟩]
    let js : List Judgement := [⟨some "k", ⟨["u1"], .fn (.var "u1") (.var "u0")⟩⟩,
      ⟨none, ⟨["u2"], .fn (.var "u2") (.var "u0")⟩⟩]
    let Γ := env.after (js.take 1)
    (check .generalize env ss).result = .ok js ∧
      ∃ r t m σ, (infer .generalize Γ (.var "k")).Yields Γ.firstFresh (r, t) m ∧
        js[1]? = some ⟨none, σ⟩ ∧ ∀ q ∈ σ.vars, q ∉ (Γ.subst r).freeVars := by
  intro env ss js Γ
  have hok : (check .generalize env ss).result = .ok js := by cbv
  have hnext : (infer .generalize Γ (.var "k") Γ.firstFresh).next = 3 := by cbv
  have hcount : (infer .generalize Γ (.var "k") Γ.firstFresh).next ≤ TyVar.maxNumber := by
    rw [hnext]
    decide
  obtain ⟨r, t, m, σ, hyields, hj, hiff⟩ :=
    check_generalizes_soundly_iff .generalize env ss js hok 1 ⟨⟨none, .var "k"⟩, ⟨17, 18⟩⟩ rfl hcount
  refine ⟨hok, r, t, m, σ, hyields, hj, hiff.2 fun q hdrawn _ a ha hqa => ?_⟩
  -- a variable is inferred without substituting anything
  obtain rfl : r = ∅ := by
    cases infer_yields_iff.1 hyields
    rfl
  obtain rfl : q = a := by simpa using hqa
  exact Γ.unknown_firstFresh (hyields.2 ▸ hcount) q ha hdrawn

/-- `\y -> x y` where the type of `x` is a free variable `a`: that becomes `u0 -> u1`, which is also the
type of the statement, and both variables are quantified. -/
theorem check_overgeneralizes :
    let env : Env := .ofList [("x", .mono (.var "a"))]
    let e : Expr := .abs "y" (.app (.var "x") (.var "y"))
    let σ : Scheme := ⟨["u0", "u1"], .fn (.var "u0") (.var "u1")⟩
    (check .generalize env [⟨⟨none, e⟩, ⟨0, 9⟩⟩]).result = .ok [⟨none, σ⟩] ∧
      ∃ r t, (infer .generalize env e env.firstFresh).result = .ok (r, t) ∧
        ∀ q ∈ σ.vars, q ∈ (env.subst r).freeVars := by
  intro env e σ
  have hok : (check .generalize env [⟨⟨none, e⟩, ⟨0, 9⟩⟩]).result = .ok [⟨none, σ⟩] := by cbv
  have hfree : (infer .generalize env e env.firstFresh).result.map
      (fun p => (env.subst p.1).freeVars) = .ok ["u0", "u1"] := by cbv
  refine ⟨hok, ?_⟩
  cases hrun : (infer .generalize env e env.firstFresh).result with
  | error err =>
    rw [hrun] at hfree
    cases hfree
  | ok p =>
    rw [hrun] at hfree
    obtain ⟨r, t⟩ := p
    refine ⟨r, t, rfl, fun q hq => ?_⟩
    have hvars : (env.subst r).freeVars = σ.vars := Except.ok.inj hfree
    rw [hvars]
    exact hq

end LetPoly
