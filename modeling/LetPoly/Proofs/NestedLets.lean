import LetPoly.Judgement
import LetPoly.Proofs.Renaming
import LetPoly.Proofs.Simulation
import Mathlib.Tactic
import Std.Data.TreeMap

/-!
# Definitions are `let`s around what follows

A program of definitions and one expression is checked as if the expression stood inside nested
`let`s. The two checks differ in how they get there: statements have each a counter of their own and
are generalized in the environment as it is, while a `let` goes on with one counter and generalizes
in the environment under a substitution. In a closed environment neither makes a difference but for
the names of variables, and definitions keep the environment closed.
-/

namespace LetPoly

/-- An expression inside `let`s, the first definition outermost. -/
def Expr.lets (defs : List (String × Expr)) (e : Expr) : Expr :=
  defs.foldr (fun d e => .letIn d.1 d.2 e) e

/-- The statement of a definition, at its place. -/
def Statement.define (d : Located (String × Expr)) : Located Statement :=
  ⟨⟨some d.val.1, d.val.2⟩, d.span⟩

/-! ### Closed environments -/

namespace Env.Closed

variable {Γ Γ' : Env}

theorem generalize (h : Γ.Closed) (t : Ty) : Γ.generalize t = ⟨t.freeVars, t⟩ := by
  rw [Closed] at h
  simp [Env.generalize, h]

theorem insert (h : Γ.Closed) {σ : Scheme} (hσ : σ.freeVars = []) (x : String) :
    Env.Closed (Γ.insert x σ) := by
  refine List.eq_nil_iff_forall_not_mem.2 fun a ha => ?_
  rw [Closed] at h
  rcases mem_freeVars_insert ha with ha | ha
  · simp [hσ] at ha
  · simp [h] at ha

/-- A definition keeps an environment closed. -/
theorem define (h : Γ.Closed) (t : Ty) (x : String) :
    Env.Closed (Γ.insert x (Γ.generalize t)) :=
  h.insert (by simp [h.generalize, Scheme.freeVars]) x

end Env.Closed

/-! ### Statements and `let`s -/

/-- A check whose last statement is an expression, and an inference: both succeed with types that
are alike, or both fail with errors that are. -/
inductive Matching.Concludes (B : Matching) :
    Except Error (List Judgement) → Except TypeError (Subst × Ty) → Prop where
  | ok (js : List Judgement) (s : Subst) {t t' : Ty} : Ty.Alike B t t' →
    Concludes B (.ok (js ++ [⟨none, ⟨t.freeVars, t⟩⟩])) (.ok (s, t'))
  | error {e e' : TypeError} {place : Span} : e.Alike B e' →
    Concludes B (.error ⟨.typing e, place⟩) (.error e')

theorem Matching.Concludes.map {B : Matching} {r : Except Error (List Judgement)}
    {r' : Except TypeError (Subst × Ty)} (h : B.Concludes r r') (j : Judgement) (s : Subst) :
    B.Concludes (r.map (j :: ·)) (r'.map fun p => (p.1.compose s, p.2)) := by
  cases h with
  | ok js r ht => exact .ok (j :: js) (r.compose s) ht
  | error he => exact .error he

end LetPoly
