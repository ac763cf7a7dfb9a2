import LetPoly.Proofs.Unifier
import Mathlib.Data.Finset.Card

/-!
# The calls that unification makes

Unifying two function types calls for their arguments, and then for their results with the solution for
the arguments applied to them. `Unify.within` runs this recursion as it is, down to a given depth and
with no reason given why it should end. It does end for all types (`Unify.exists_within`), and with the
answer of `unify`.

The results may have grown under the solution, even beyond the size of the two functions. But a
solution that binds anything leaves fewer variables, and one that binds nothing leaves the results as
they were, so no sequence of calls goes on for ever (`Unify.Calls`).
-/

namespace LetPoly

namespace Unify

/-- Unifies two types with calls nested no deeper than a given depth, and without an answer if that is
not deep enough. -/
def within : Nat → Ty → Ty → Option Unification
  | 0, _, _ => none
  | depth + 1, t, u =>
    match t, u with
    | .int, .int | .bool, .bool => some ⟨.ok ∅, []⟩
    | .var a, u => some (bindVar a u)
    | t, .var a => some (bindVar a t)
    | .fn l r, .fn l' r' => do
      let args ← within depth l l'
      match args.result with
      | .error _ => return args
      | .ok s =>
        let results ← within depth (r.subst s) (r'.subst s)
        return args.andThen fun _ => results
    | t, u => some ⟨.error (.mismatch t u), []⟩

theorem within_var_right {t : Ty} (depth : Nat) (a : TyVar) (ht : t.isVar = false) :
    within (depth + 1) t (.var a) = some (bindVar a t) := by
  cases t with
  | var b => cases ht
  | fn l r => rfl
  | int | bool => rfl

theorem within_of_clash {t u : Ty} (depth : Nat) (h : t.clash u = true) :
    within (depth + 1) t u = some ⟨.error (.mismatch t u), []⟩ := by
  cases t <;> cases u <;> cases h <;> rfl

/-- If the calls are answered, so is the call that makes them. -/
theorem within_fn {depth : Nat} {l r l' r' : Ty} (hargs : within depth l l' = some (unify l l'))
    (hresults : ∀ s, (unify l l').result = .ok s →
      within depth (r.subst s) (r'.subst s) = some (unify (r.subst s) (r'.subst s))) :
    within (depth + 1) (.fn l r) (.fn l' r') = some (unify (.fn l r) (.fn l' r')) := by
  rw [unify_fn_fn, within, hargs]
  simp only [Option.bind_eq_bind, Option.bind_some]
  cases hs : (unify l l').result with
  | error e =>
    have hsame : (unify l l').andThen (fun s => unify (r.subst s) (r'.subst s)) = unify l l' := by
      simp only [Unification.andThen, hs]
      rw [← hs]
    rw [hsame]
    rfl
  | ok s =>
    simp only [hresults s hs, Option.bind_some, Unification.andThen, hs]
    rfl

/-- **The recursion of unification ends.** Given enough depth, it comes to the answer of `unify`. -/
theorem exists_within (t u : Ty) :
    ∃ d, ∀ depth, d ≤ depth → within depth t u = some (unify t u) := by
  -- all types but two functions are answered at once
  have hleaf : ∀ {t u : Ty}, (∀ depth, within (depth + 1) t u = some (unify t u)) →
      ∃ d, ∀ depth, d ≤ depth → within depth t u = some (unify t u) := by
    intro t u h
    refine ⟨1, fun depth hdepth => ?_⟩
    cases depth with
    | zero => omega
    | succ k => exact h k
  induction t, u using Unify.induction with
  | int => exact hleaf fun _ => by rw [unify_int_int]; rfl
  | bool => exact hleaf fun _ => by rw [unify_bool_bool]; rfl
  | varLeft a u => exact hleaf fun _ => by rw [unify_var_left]; rfl
  | varRight t a ht => exact hleaf fun k => by rw [unify_var_right a ht, within_var_right k a ht]
  | fn l r l' r' ihargs ihresults =>
    obtain ⟨d, hargs⟩ := ihargs
    obtain ⟨d', hresults⟩ : ∃ d', ∀ s, (unify l l').result = .ok s → ∀ depth, d' ≤ depth →
        within depth (r.subst s) (r'.subst s) = some (unify (r.subst s) (r'.subst s)) := by
      cases hs : (unify l l').result with
      | error e => exact ⟨0, fun s h => by cases h⟩
      | ok s =>
        obtain ⟨d', h⟩ := ihresults s hs
        refine ⟨d', fun s' hs' => ?_⟩
        obtain rfl := Except.ok.inj hs'
        exact h
    refine ⟨max d d' + 1, fun depth hdepth => ?_⟩
    cases depth with
    | zero => omega
    | succ k => exact within_fn (hargs k (by omega)) fun s hs => hresults s hs k (by omega)
  | clash t u h => exact hleaf fun k => by rw [unify_of_clash h, within_of_clash k h]

/-! ### Calls -/

/-- `Calls p q`: to unify the pair `q`, the pair `p` is unified. -/
inductive Calls : Ty × Ty → Ty × Ty → Prop where
  | args (l r l' r' : Ty) : Calls (l, l') (.fn l r, .fn l' r')
  | results {l l' : Ty} (r r' : Ty) {s : Subst} (h : (unify l l').result = .ok s) :
    Calls (r.subst s, r'.subst s) (.fn l r, .fn l' r')

/-- Every call is less work than the one that makes it. -/
theorem Calls.work_lt {p q : Ty × Ty} (h : Calls p q) :
    Prod.Lex (· < ·) (· < ·) (work p.1 p.2) (work q.1 q.2) := by
  cases h with
  | args l r l' r' => exact work_args_lt l r l' r'
  | results r r' h => exact work_results_lt r r' (unify_solved h)

theorem calls_wellFounded : WellFounded Calls :=
  Subrelation.wf Calls.work_lt
    (InvImage.wf (fun p : Ty × Ty => work p.1 p.2) (Prod.lex Nat.lt_wfRel Nat.lt_wfRel).wf)

/-- The number of distinct variables of two types. -/
theorem card_freeVars (t u : Ty) :
    (t.freeVars ++ u.freeVars).toFinset.card = (Ty.fn t u).freeVars.length := by
  have hsame : (t.freeVars ++ u.freeVars).toFinset = (Ty.fn t u).freeVars.toFinset := by
    ext a
    simp
  rw [hsame, List.toFinset_card_of_nodup (Ty.nodup_freeVars _)]

end Unify

/-- **Unification ends on all types.** The recursion, run down to a large enough depth, has an answer,
which is that of `unify`; and no sequence of calls goes on for ever. After the arguments of two
functions have been solved, there are two cases. If nothing was bound, the results are unified as they
are, and both are smaller than the functions. Otherwise the results have strictly fewer distinct
variables than the functions, however large they have become. -/
theorem unify_terminates :
    (∀ t u, ∃ d, ∀ depth, d ≤ depth → Unify.within depth t u = some (unify t u)) ∧
    WellFounded Unify.Calls ∧
    ∀ (l r l' r' : Ty) (s : Subst), (unify l l').result = .ok s →
      (s = ∅ ∧ r.subst s = r ∧ r'.subst s = r' ∧
        r.size < (Ty.fn l r).size ∧ r'.size < (Ty.fn l' r').size) ∨
      ((r.subst s).freeVars ++ (r'.subst s).freeVars).toFinset.card <
        ((Ty.fn l r).freeVars ++ (Ty.fn l' r').freeVars).toFinset.card := by
  refine ⟨Unify.exists_within, Unify.calls_wellFounded, fun l r l' r' s hs => ?_⟩
  by_cases hempty : s = ∅
  · subst hempty
    refine .inl ⟨rfl, r.subst_empty, r'.subst_empty, ?_, ?_⟩ <;> simp only [Ty.size] <;> omega
  · rw [Unify.card_freeVars, Unify.card_freeVars]
    exact .inr (Unify.length_freeVars_results_lt r r' (unify_solved hs) hempty)

/-- `a -> (a -> a -> a)` and `(Int -> Int -> Int) -> Int`: the results become larger than the two
functions were, but `a` is gone. -/
theorem unify_terminates_growing :
    let ints : Ty := .fn .int (.fn .int .int)
    let l : Ty := .var "a"
    let r : Ty := .fn (.var "a") (.fn (.var "a") (.var "a"))
    let s : Subst := .single "a" ints
    (unify l ints).result = .ok s ∧
    (Ty.fn l r).size + (Ty.fn ints .int).size < (r.subst s).size + (Ty.int.subst s).size ∧
    ((r.subst s).freeVars ++ (Ty.int.subst s).freeVars).toFinset.card <
      ((Ty.fn l r).freeVars ++ (Ty.fn ints .int).freeVars).toFinset.card := by
  intro ints l r s
  have hs : (unify l ints).result = .ok s := by cbv
  refine ⟨hs, by decide +kernel, ?_⟩
  refine (unify_terminates.2.2 l r ints .int s hs).resolve_left fun h => ?_
  have hsize : (∅ : Subst).size = s.size := by rw [h.1]
  exact absurd hsize (by decide +kernel)

end LetPoly
