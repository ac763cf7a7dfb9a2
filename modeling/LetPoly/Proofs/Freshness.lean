import LetPoly.Judgement
import LetPoly.Proofs.Scope
import Mathlib.Tactic
import Std.Data.TreeMap

/-!
# Fresh names stay fresh

A run draws its variables from a counter and looks at no environment when it does so. That no drawn
variable clashes with a name in use rests on one invariant: the counter is past every fresh name of
the environment, be it quantified or free (`Env.Passed`). It holds at the start, where the counter is
set from the environment, and a run hands it on to the environment that it leaves, also with the
generalized type of the run bound to a name (`Infers.passed`, `Infers.passed_define`). So any number
of runs can share one counter and one environment (`Session.Fresh.runs`).
-/

namespace LetPoly

/-- A counter that stands at `n` is past all fresh names of an environment, quantified or free. Only
numbers below `N` are looked at, for a counter that does not get past `N`. -/
def Env.Passed (Γ : Env) (n N : Nat) : Prop :=
  ∀ (x : String) (σ : Scheme), Γ[x]? = some σ → ∀ k < N, TyVar.fresh k ∈ σ.names → k < n

namespace Env

variable {Γ : Env} {n m N : Nat} {s : Subst} {t : Ty}

/-- In other words, no name of the environment will be drawn. -/
theorem passed_iff : Γ.Passed n N ↔
    ∀ (x : String) (σ : Scheme), Γ[x]? = some σ → ∀ a ∈ σ.names, a ∉ TyVar.drawn n N := by
  constructor
  · intro h x σ hx a ha hd
    obtain ⟨k, hk, rfl⟩ := TyVar.mem_drawn.1 hd
    have := h x σ hx k hk.2 ha
    omega
  · intro h x σ hx k hk hmem
    by_contra hn
    exact h x σ hx _ hmem (TyVar.fresh_mem_drawn.2 ⟨by omega, hk⟩)

/-- The first fresh number is past all names that a counter of 32 bits can get to. -/
theorem passed_firstFresh (Γ : Env) : Γ.Passed Γ.firstFresh TyVar.maxNumber :=
  fun _ _ hx _ hk hmem => lt_firstFresh hx hmem hk

namespace Passed

theorem unknown (h : Γ.Passed n N) : Γ.Unknown n N := by
  intro a ha
  obtain ⟨x, σ, hx, ha⟩ := mem_freeVars.1 ha
  exact passed_iff.1 h x σ hx a (List.mem_append_right _ (Scheme.mem_freeVars.1 ha).1)

theorem mono (h : Γ.Passed n N) (hnm : n ≤ m) : Γ.Passed m N :=
  fun x σ hx k hk hmem => Nat.lt_of_lt_of_le (h x σ hx k hk hmem) hnm

theorem insert (h : Γ.Passed n N) {σ : Scheme} (hσ : ∀ a ∈ σ.names, a ∉ TyVar.drawn n N)
    (x : String) : Env.Passed (Γ.insert x σ) n N := by
  rw [passed_iff] at h ⊢
  intro y σ' hy
  rw [Std.ExtTreeMap.getElem?_insert] at hy
  split at hy
  · obtain rfl := Option.some.inj hy
    exact hσ
  · exact h y σ' hy

/-- What a run substitutes is in its scope, and all that is in its scope is passed in the end. -/
theorem subst (h : Γ.Passed n N) (hs : s.Solved (Γ.scope n m)) (hnm : n ≤ m) :
    (Γ.subst s).Passed m N := by
  have hold := h.unknown
  have hkeep := passed_iff.1 (h.mono hnm)
  rw [passed_iff]
  intro x σ' hx a ha
  rw [getElem?_subst, Option.map_eq_some_iff] at hx
  obtain ⟨σ, hx, rfl⟩ := hx
  rw [Scheme.subst_eq] at ha
  rcases List.mem_append.1 ha with ha | ha
  · exact hkeep x σ hx a (List.mem_append_left _ ha)
  · obtain ⟨c, hc, ha⟩ := Ty.mem_freeVars_assign.1 ha
    have hname := hkeep x σ hx c (List.mem_append_right _ hc)
    by_cases hq : c ∈ σ.vars
    · rw [Assignment.override_of_mem hq] at ha
      obtain rfl : a = c := by simpa using ha
      exact hname
    · rw [Assignment.override_of_notMem hq] at ha
      rcases Subst.mem_freeVars_assignment ha with rfl | ⟨u, hu, ha⟩
      · exact hname
      · exact hold.notMem_drawn hnm (hs.mem_of_mem c u hu a ha)

end Passed

/-- Generalization brings no names that are not in the type. -/
theorem mem_names_generalize {a : TyVar} : a ∈ (Γ.generalize t).names ↔ a ∈ t.freeVars := by
  simp only [Scheme.names, List.mem_append, mem_vars_generalize, body_generalize]
  exact ⟨fun h => h.elim And.left id, .inr⟩

end Env

namespace Infers

variable {policy : LetPolicy} {Γ : Env} {n m N : Nat} {e : Expr} {s : Subst} {t : Ty}

/-- A run hands on an environment that its counter is past. -/
theorem passed (h : Infers policy Γ n e s t m) (hΓ : Γ.Passed n N) (hm : m ≤ N) :
    (Γ.subst s).Passed m N :=
  hΓ.subst (h.solved (hΓ.unknown.mono (Nat.le_refl n) hm)).1 h.le

/-- The type that was found may be generalized and bound to a name. -/
theorem passed_define (h : Infers policy Γ n e s t m) (hΓ : Γ.Passed n N) (hm : m ≤ N)
    (x : Option String) :
    ((Γ.subst s).define x ((Γ.subst s).generalize (t.subst s))).Passed m N := by
  obtain ⟨hs, ht⟩ := h.solved (hΓ.unknown.mono (Nat.le_refl n) hm)
  cases x with
  | none => exact h.passed hΓ hm
  | some x =>
    refine (h.passed hΓ hm).insert (fun a ha => ?_) x
    have hscope := (hs.mem_freeVars_subst (fun b hb => (ht b hb).1) (Env.mem_names_generalize.1 ha)).1
    exact hΓ.unknown.notMem_drawn h.le hscope

end Infers

/-! ### Many runs -/

/-- An environment and a counter that runs take over from each other. -/
structure Session where
  env : Env
  next : Nat

namespace Session

/-- The environment after a result. If a type was found, the environment is substituted, and the
generalized type is bound to the name if there is one. -/
def settle (Γ : Env) (name : Option String) : Except TypeError (Subst × Ty) → Env
  | .error _ => Γ
  | .ok (s, t) => (Γ.subst s).define name ((Γ.subst s).generalize (t.subst s))

/-- One run. If it fails, only the counter has moved. -/
def run (policy : LetPolicy) (S : Session) (stmt : Statement) : Session :=
  let r := infer policy S.env stmt.expr S.next
  ⟨settle S.env stmt.name r.result, r.next⟩

/-- Runs in a row. -/
def runs (policy : LetPolicy) (S : Session) (stmts : List Statement) : Session :=
  stmts.foldl (run policy) S

/-- The counter is past the names of the environment. -/
def Fresh (N : Nat) (S : Session) : Prop := S.env.Passed S.next N

variable {policy : LetPolicy} {S : Session} {N : Nat}

theorem next_le_runs (policy : LetPolicy) (S : Session) (stmts : List Statement) :
    S.next ≤ (S.runs policy stmts).next := by
  induction stmts generalizing S with
  | nil => exact Nat.le_refl _
  | cons stmt stmts ih =>
    exact Nat.le_trans (infer_climbs policy S.env stmt.expr S.next) (ih (S.run policy stmt))

/-- One run keeps the counter ahead, whether it succeeds or not. -/
theorem Fresh.run (h : S.Fresh N) {stmt : Statement} (hN : (S.run policy stmt).next ≤ N) :
    (S.run policy stmt).Fresh N := by
  show (settle S.env stmt.name (infer policy S.env stmt.expr S.next).result).Passed
    (infer policy S.env stmt.expr S.next).next N
  cases hr : (infer policy S.env stmt.expr S.next).result with
  | error err => exact Env.Passed.mono h (infer_climbs policy S.env stmt.expr S.next)
  | ok st =>
    obtain ⟨s, t⟩ := st
    exact (infer_yields_iff.1 ⟨hr, rfl⟩).passed_define h hN stmt.name

/-- So do any number of runs. -/
theorem Fresh.runs (h : S.Fresh N) {stmts : List Statement} (hN : (S.runs policy stmts).next ≤ N) :
    (S.runs policy stmts).Fresh N := by
  induction stmts generalizing S with
  | nil => exact h
  | cons stmt stmts ih =>
    exact ih (h.run (Nat.le_trans (next_le_runs policy (S.run policy stmt) stmts) hN)) hN

end Session

/-- **Fresh names never collide, and nothing else enters a result.** Let a counter at `n` be past all
fresh names of an environment. A run moves it from `n` to some `m` that is not below `n`, also if it
fails. If the run succeeds, all variables that it binds, that stand in what it binds them to or that
stand in the type are free in the environment or are drawn by the run, from `n` to `m`. The counter is
then past the names of the environment under the substitution, and with the generalized type bound to
a name as well; and so it is after any sequence of runs. A counter that is set from an environment is
past its names. Throughout, the counter has to stay within its range, `N`. -/
theorem infer_keeps_fresh (policy : LetPolicy) (env : Env) (n N : Nat) (henv : env.Passed n N) :
    (∀ e, n ≤ (infer policy env e n).next) ∧
    (∀ (e : Expr) (s : Subst) (t : Ty) (m : Nat), (infer policy env e n).result = .ok (s, t) →
      (infer policy env e n).next = m → m ≤ N →
      (∀ a, a ∈ s ∨ (∃ (b : TyVar) (u : Ty), s[b]? = some u ∧ a ∈ u.freeVars) ∨ a ∈ t.freeVars →
        a ∈ env.freeVars ∨ a ∈ TyVar.drawn n m) ∧
      (env.subst s).Passed m N ∧
      ∀ x, ((env.subst s).define (some x) ((env.subst s).generalize (t.subst s))).Passed m N) ∧
    (∀ stmts, (Session.runs policy ⟨env, n⟩ stmts).next ≤ N →
      (Session.runs policy ⟨env, n⟩ stmts).env.Passed (Session.runs policy ⟨env, n⟩ stmts).next N) ∧
    ∀ Γ : Env, Γ.Passed Γ.firstFresh TyVar.maxNumber := by
  refine ⟨fun e => infer_climbs policy env e n, fun e s t m hok hnext hm => ?_,
    fun stmts => Session.Fresh.runs (S := ⟨env, n⟩) henv, Env.passed_firstFresh⟩
  have hrun := infer_yields_iff.1 ⟨hok, hnext⟩
  obtain ⟨hs, ht⟩ := hrun.solved (henv.unknown.mono (Nat.le_refl n) hm)
  refine ⟨fun a ha => Env.mem_scope.1 ?_, hrun.passed henv hm, fun x => hrun.passed_define henv hm _⟩
  rcases ha with ha | ⟨b, u, hu, ha⟩ | ha
  · exact hs.mem_of_bound a ha
  · exact hs.mem_of_mem b u hu a ha
  · exact (ht a ha).1

/-- `f x` and then `\y -> r`, where `r` stands for `f x`. The free variable `u1` is replaced by one that
the first run draws, and the second run goes on after it. -/
theorem infer_keeps_fresh_twice :
    let env : Env := .ofList [("f", ⟨["u0"], .fn (.var "u0") (.var "u1")⟩), ("x", .mono (.var "u1"))]
    let stmts : List Statement :=
      [⟨some "r", .app (.var "f") (.var "x")⟩, ⟨none, .abs "y" (.var "r")⟩]
    env.Passed 2 TyVar.maxNumber ∧ (Session.runs .generalize ⟨env, 2⟩ stmts).next = 5 ∧
      (Session.runs .generalize ⟨env, 2⟩ stmts).env.Passed 5 TyVar.maxNumber := by
  intro env stmts
  have hfirst : env.firstFresh = 2 := by decide +kernel
  have henv : env.Passed 2 TyVar.maxNumber := hfirst ▸ env.passed_firstFresh
  have hnext : (Session.runs .generalize ⟨env, 2⟩ stmts).next = 5 := by cbv
  have hruns := (infer_keeps_fresh .generalize env 2 TyVar.maxNumber henv).2.2.1 stmts
  rw [hnext] at hruns
  exact ⟨henv, hnext, hruns (by decide)⟩

end LetPoly
