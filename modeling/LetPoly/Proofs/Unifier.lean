import LetPoly.Proofs.Assignment
import LetPoly.Unify

/-!
# Unification finds a most general unifier

`unify` is well-founded but not structural: the results of two functions are unified after the
solution for their arguments has been applied to them. `Unify.induction` is its induction principle,
with one case for each way in which a call can go. From it follows that a call decides whether the
two types can be made equal, and that a solution is most general (`unify_decides`).
-/

namespace LetPoly

/-- Whether two types start differently, and neither of them with a variable. -/
def Ty.clash : Ty → Ty → Bool
  | .int, .bool | .int, .fn .. | .bool, .int | .bool, .fn .. | .fn .., .int | .fn .., .bool => true
  | _, _ => false

theorem unify_of_clash {t u : Ty} (h : t.clash u = true) :
    unify t u = ⟨.error (.mismatch t u), []⟩ := by
  cases t <;> cases u <;> simp [Ty.clash] at h <;> rw [unify, Unify.solve] <;> simp

/-- What holds of two types whenever it holds of those that unifying them goes on to unify, holds of
all types. -/
theorem Unify.induction {P : Ty → Ty → Prop} (int : P .int .int) (bool : P .bool .bool)
    (varLeft : ∀ a u, P (.var a) u) (varRight : ∀ t a, t.isVar = false → P t (.var a))
    (fn : ∀ l r l' r', P l l' →
      (∀ s, (unify l l').result = .ok s → P (r.subst s) (r'.subst s)) → P (.fn l r) (.fn l' r'))
    (clash : ∀ t u, t.clash u = true → P t u) (t u : Ty) : P t u := by
  have wf := InvImage.wf (fun p : Ty × Ty => work p.1 p.2)
    (Prod.lex Nat.lt_wfRel Nat.lt_wfRel).wf
  induction hp : (t, u) using wf.induction generalizing t u with
  | _ p ih =>
    subst hp
    have ih : ∀ t' u', Prod.Lex (· < ·) (· < ·) (work t' u') (work t u) → P t' u' :=
      fun t' u' h => ih (t', u') h t' u' rfl
    cases t with
    | var a => exact varLeft a u
    | int =>
      cases u with
      | var a => exact varRight .int a rfl
      | int => exact int
      | bool | fn _ _ => exact clash _ _ rfl
    | bool =>
      cases u with
      | var a => exact varRight .bool a rfl
      | bool => exact bool
      | int | fn _ _ => exact clash _ _ rfl
    | fn l r =>
      cases u with
      | var a => exact varRight (.fn l r) a rfl
      | fn l' r' =>
        refine fn l r l' r' (ih l l' (work_args_lt l r l' r')) fun s hs => ?_
        exact ih _ _ (work_results_lt r r' (unify_solved hs))
      | int | bool => exact clash _ _ rfl

/-! ### Deciding whether types can be made equal -/

/-- A substitution makes two types equal, and does nothing that any assignment which makes them
equal would notice. -/
structure Subst.MostGeneral (s : Subst) (t u : Ty) : Prop where
  unifies : t.subst s = u.subst s
  general : ∀ θ : Assignment, t.assign θ = u.assign θ → ∀ v : Ty, (v.subst s).assign θ = v.assign θ

/-- A solution is most general, and an error means that there is none. -/
structure Unification.Decides (r : Unification) (t u : Ty) : Prop where
  ok : ∀ s, r.result = .ok s → s.MostGeneral t u
  error : ∀ e, r.result = .error e → ∀ θ : Assignment, t.assign θ ≠ u.assign θ

theorem Unification.Decides.symm {r : Unification} {t u : Ty} (h : r.Decides t u) :
    r.Decides u t where
  ok s hs := ⟨(h.ok s hs).unifies.symm, fun θ hθ => (h.ok s hs).general θ hθ.symm⟩
  error e he θ hθ := h.error e he θ hθ.symm

theorem Unification.Decides.of_ok {r : Unification} {s : Subst} {t u : Ty} (hr : r.result = .ok s)
    (hs : s.MostGeneral t u) : r.Decides t u where
  ok s' hs' := by
    rw [hr] at hs'
    obtain rfl := Except.ok.inj hs'
    exact hs
  error e he := by
    rw [hr] at he
    cases he

theorem Unification.Decides.of_error {r : Unification} {e : TypeError} {t u : Ty}
    (hr : r.result = .error e) (h : ∀ θ : Assignment, t.assign θ ≠ u.assign θ) :
    r.Decides t u where
  ok s hs := by
    rw [hr] at hs
    cases hs
  error _ _ := h

theorem Subst.MostGeneral.empty (t : Ty) : Subst.MostGeneral ∅ t t where
  unifies := rfl
  general θ _ v := by rw [Ty.subst_empty]

/-- A variable that does not occur in a type is best bound to it. -/
theorem Subst.MostGeneral.single {a : TyVar} {t : Ty} (ha : a ∉ t.freeVars) :
    (Subst.single a t).MostGeneral (.var a) t := by
  have hsingle : ∀ b, (Subst.single a t).assignment b = if a = b then t else .var b := by
    intro b
    rw [Subst.assignment_eq, Subst.getElem?_single]
    split <;> rfl
  refine ⟨?_, fun θ heq v => ?_⟩
  · rw [Ty.subst_eq_assign, Ty.subst_eq_assign, Ty.assign, hsingle, if_pos rfl]
    refine (Ty.assign_eq_self fun b hb => ?_).symm
    have hne : a ≠ b := fun hab => ha (hab ▸ hb)
    rw [hsingle, if_neg hne]
  · rw [Ty.subst_eq_assign, Ty.assign_assign]
    refine Ty.assign_congr fun b _ => ?_
    rw [hsingle]
    split
    · rename_i hab
      rw [← heq, ← hab]
      rfl
    · rfl

/-- A type is larger than any of its variables, also when both are replaced. -/
theorem Ty.size_assign_lt {a : TyVar} {t : Ty} (ha : a ∈ t.freeVars) (ht : t ≠ .var a)
    (θ : Assignment) : (θ a).size < (t.assign θ).size := by
  have hle : ∀ u : Ty, a ∈ u.freeVars → (θ a).size ≤ (u.assign θ).size := by
    intro u hu
    induction u with
    | var b =>
      obtain rfl : a = b := by simpa using hu
      exact Nat.le_refl _
    | fn v w ihv ihw =>
      simp only [assign, size]
      rcases mem_freeVars_fn.1 hu with hu | hu
      · have := ihv hu; omega
      · have := ihw hu; omega
    | int | bool => simp at hu
  cases t with
  | var b =>
    obtain rfl : a = b := by simpa using ha
    exact absurd rfl ht
  | fn v w =>
    simp only [assign, size]
    rcases mem_freeVars_fn.1 ha with ha | ha
    · have := hle v ha; omega
    · have := hle w ha; omega
  | int | bool => simp at ha

theorem Unify.bindVar_decides (a : TyVar) (t : Ty) : (bindVar a t).Decides (.var a) t := by
  unfold bindVar
  split
  · rename_i hself
    exact .of_ok rfl (hself ▸ .empty t)
  · split
    · rename_i hself hocc
      refine .of_error rfl fun θ heq => ?_
      have hlt := Ty.size_assign_lt (Ty.occurs_eq_true_iff.1 hocc) hself θ
      rw [← heq, Ty.assign] at hlt
      exact absurd hlt (Nat.lt_irrefl _)
    · rename_i hself hocc
      exact .of_ok rfl (.single (mt Ty.occurs_eq_true_iff.2 hocc))

theorem Unification.result_andThen (r : Unification) (next : Subst → Unification) :
    (r.andThen next).result = r.result.bind fun s => (next s).result.map (·.compose s) := by
  unfold andThen
  cases r.result with
  | error e => rfl
  | ok s => cases hs : (next s).result <;> simp [Except.bind, Except.map, hs]

/-- Arguments first, then what is left of the results. -/
theorem Unification.Decides.fn {l r l' r' : Ty} (harg : (unify l l').Decides l l')
    (hres : ∀ s, (unify l l').result = .ok s →
      (unify (r.subst s) (r'.subst s)).Decides (r.subst s) (r'.subst s)) :
    (unify (.fn l r) (.fn l' r')).Decides (.fn l r) (.fn l' r') := by
  have hresult := congrArg result (unify_fn_fn l r l' r')
  rw [result_andThen] at hresult
  cases hs : (unify l l').result with
  | error e =>
    rw [hs] at hresult
    refine .of_error hresult fun θ heq => ?_
    exact harg.error e hs θ (Ty.fn.inj heq).1
  | ok s =>
    -- an assignment that unifies the functions does not notice `s`, so it unifies what `s` leaves
    have left : ∀ θ : Assignment, (Ty.fn l r).assign θ = (Ty.fn l' r').assign θ →
        (r.subst s).assign θ = (r'.subst s).assign θ := by
      intro θ heq
      have hs := (harg.ok s hs).general θ (Ty.fn.inj heq).1
      rw [hs, hs]
      exact (Ty.fn.inj heq).2
    cases hs' : (unify (r.subst s) (r'.subst s)).result with
    | error e =>
      simp only [hs, Except.bind, hs', Except.map] at hresult
      exact .of_error hresult fun θ heq => (hres s hs).error e hs' θ (left θ heq)
    | ok s' =>
      simp only [hs, Except.bind, hs', Except.map] at hresult
      have hgen := harg.ok s hs
      have hgen' := (hres s hs).ok s' hs'
      refine .of_ok hresult ⟨?_, fun θ heq v => ?_⟩
      · simp only [Subst.subst_compose, Ty.subst, hgen.unifies, hgen'.unifies]
      · rw [Subst.subst_compose, hgen'.general θ (left θ heq),
          hgen.general θ (Ty.fn.inj heq).1]

theorem unify_decides (t u : Ty) : (unify t u).Decides t u := by
  induction t, u using Unify.induction with
  | int => exact .of_ok (by rw [unify_int_int]) (.empty _)
  | bool => exact .of_ok (by rw [unify_bool_bool]) (.empty _)
  | varLeft a u =>
    rw [unify_var_left]
    exact Unify.bindVar_decides a u
  | varRight t a ht =>
    rw [unify_var_right a ht]
    exact (Unify.bindVar_decides a t).symm
  | fn l r l' r' harg hres => exact .fn harg hres
  | clash t u h =>
    refine .of_error (by rw [unify_of_clash h]) fun θ heq => ?_
    cases t <;> cases u <;> cases h <;> cases heq

/-- Types that some assignment makes equal are unified. -/
theorem exists_unify {t u : Ty} {θ : Assignment} (h : t.assign θ = u.assign θ) :
    ∃ s, (unify t u).result = .ok s := by
  cases hr : (unify t u).result with
  | ok s => exact ⟨s, rfl⟩
  | error e => exact absurd h ((unify_decides t u).error e hr θ)

/-- **Unification is correct.** Two types are unified exactly when some substitution makes them
equal. What is found makes them equal, and every substitution that does so factors through it. -/
theorem unify_most_general (t u : Ty) :
    ((∃ s, (unify t u).result = .ok s) ↔ ∃ q : Subst, t.subst q = u.subst q) ∧
    ∀ s, (unify t u).result = .ok s →
      t.subst s = u.subst s ∧
      ∀ q : Subst, t.subst q = u.subst q → ∀ v : Ty, (v.subst s).subst q = v.subst q := by
  refine ⟨⟨fun ⟨s, hs⟩ => ⟨s, ((unify_decides t u).ok s hs).unifies⟩, ?_⟩, fun s hs => ?_⟩
  · rintro ⟨q, hq⟩
    simp only [Ty.subst_eq_assign] at hq
    exact exists_unify hq
  · have hmost := (unify_decides t u).ok s hs
    refine ⟨hmost.unifies, fun q hq v => ?_⟩
    rw [Ty.subst_eq_assign q t, Ty.subst_eq_assign q u] at hq
    rw [Ty.subst_eq_assign q, Ty.subst_eq_assign q]
    exact hmost.general q.assignment hq v

/-- `a -> b` and `b -> Int`: binding `a` to `b` changes what is left of the results. -/
theorem unify_most_general_chain :
    let t : Ty := .fn (.var "a") (.var "b")
    let u : Ty := .fn (.var "b") .int
    ∃ s, (unify t u).result = .ok s ∧ t.subst s = u.subst s ∧
      ∀ q : Subst, t.subst q = u.subst q → ∀ v : Ty, (v.subst s).subst q = v.subst q := by
  intro t u
  have hq : t.subst (.ofList [("a", .int), ("b", .int)]) =
      u.subst (.ofList [("a", .int), ("b", .int)]) := by decide +kernel
  obtain ⟨s, hs⟩ := (unify_most_general t u).1.2 ⟨_, hq⟩
  exact ⟨s, hs, (unify_most_general t u).2 s hs⟩

end LetPoly
