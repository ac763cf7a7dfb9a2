import LetPoly.Proofs.Capture
import LetPoly.Proofs.Scope

/-!
# Two substitutions in a row

Composing substitutions is a monoid, as an equation of maps: entries that bind a variable to itself
count like any others. It acts on types without any condition. A scheme hides its quantified
variables from a substitution, so on schemes and environments it matters what the first of two
substitutions brings in. If a variable that it brings meets a quantified one of the same name, the
second substitution no longer reaches it, while the composition has already replaced it. This is the
only thing that can go wrong (`Env.subst_compose_iff`).
-/

namespace LetPoly

/-- Binding a captured variable to `Int` afterwards tells the two ways apart. -/
theorem Scheme.noCapture_of_subst_compose {r : Subst} {σ : Scheme}
    (h : ∀ s : Subst, σ.subst (s.compose r) = (σ.subst r).subst s) : σ.NoCapture r := by
  intro a ha b hb hq
  obtain ⟨hbody, hfree⟩ := mem_freeVars.1 ha
  have heq := congrArg Scheme.body (h (.single b .int))
  simp only [subst_eq, Ty.assign_assign] at heq
  have hbrought := Ty.eq_of_assign_eq heq a hbody
  simp only [Assignment.override_of_notMem hfree, Subst.assignment_compose] at hbrought
  have hself := Ty.eq_of_assign_eq hbrought b hb
  rw [Assignment.override_of_mem hq, Subst.assignment_eq, Subst.getElem?_single, if_pos rfl] at hself
  cases hself

/-- **A composition does to an environment what its parts do in turn, exactly when the first of them
captures nothing.** -/
theorem Env.subst_compose_iff {r : Subst} {env : Env} :
    (∀ s : Subst, env.subst (s.compose r) = (env.subst r).subst s) ↔ env.NoCapture r := by
  constructor
  · intro h x σ hx
    refine Scheme.noCapture_of_subst_compose fun s => ?_
    have hentry := congrArg (·[x]?) (h s)
    simpa [hx] using hentry
  · exact fun hr s => Env.subst_subst hr

/-- **Composing substitutions is a monoid that acts on types and, without capture, on environments.**
The laws of the monoid are equations of maps. Nothing is captured if no variable that is quantified in
the environment occurs in what the first substitution puts for a variable. -/
theorem Subst.compose_acts :
    (∀ (s r : Subst) (t : Ty), t.subst (s.compose r) = (t.subst r).subst s) ∧
    (∀ t : Ty, t.subst ∅ = t) ∧
    (∀ s r q : Subst, s.compose (r.compose q) = (s.compose r).compose q) ∧
    (∀ s : Subst, s.compose ∅ = s ∧ compose ∅ s = s) ∧
    (∀ (s r : Subst) (env : Env), r.Avoids env.quantified →
      env.subst (s.compose r) = (env.subst r).subst s) ∧
    (∀ env : Env, env.subst ∅ = env) := by
  refine ⟨subst_compose, Ty.subst_empty, compose_assoc, fun s => ⟨compose_empty s, empty_compose s⟩,
    fun s r env hr => ?_, Env.subst_empty⟩
  exact Env.subst_compose_iff.2 hr.noCapture s

/-- `b` is bound by both substitutions, to a type with `b` itself by the first; `c` is bound to itself;
and `a` is quantified in the scheme of `f`, so there it is out of the reach of the second. -/
theorem Subst.compose_acts_hidden :
    let s : Subst := .ofList [("a", .int), ("b", .var "a")]
    let r : Subst := .ofList [("b", .fn (.var "b") (.var "c")), ("c", .var "c")]
    let env : Env := .ofList [("f", ⟨["a"], .fn (.var "a") (.var "b")⟩), ("x", .mono (.var "c"))]
    r.Avoids env.quantified ∧ env.subst (s.compose r) = (env.subst r).subst s := by
  intro s r env
  have hquantified : env.quantified = ["a"] := by decide +kernel
  have hr : r.Avoids env.quantified := by
    intro c t ht a ha
    obtain rfl : a = "a" := by simpa [hquantified] using ha
    have hpair := mem_of_getElem?_ofList ht
    simp only [List.mem_cons, List.not_mem_nil, or_false, Prod.mk.injEq] at hpair
    rcases hpair with ⟨-, rfl⟩ | ⟨-, rfl⟩ <;> decide
  exact ⟨hr, compose_acts.2.2.2.2.1 s r env hr⟩

end LetPoly
