import LetPoly.Subst
import LetPoly.TypeError

/-!
# Unification

`unify t u` looks for a substitution that makes two types equal. It binds one variable at a time:
the left one of two, never to a type that contains it. Functions are unified argument first, and the
bindings found there are applied to the results before those are unified.

The recursion ends although that can make the results larger. A solution mentions only variables of
the types it unifies, and those that it binds are gone from every type it is applied to. So either
nothing was bound, and the results are smaller than the functions, or there are fewer variables left
to bind.
-/

namespace LetPoly

/-- What unification leaves: a solution or the reason why there is none, and the bindings made on
the way, in their order. -/
structure Unification where
  result : Except TypeError Subst
  bindings : List (TyVar × Ty)

/-- A substitution that binds variables of `vars` to types over `vars`, in which no bound variable
appears. -/
structure Subst.Solved (s : Subst) (vars : List TyVar) : Prop where
  mem_of_bound : ∀ a ∈ s, a ∈ vars
  mem_of_mem : ∀ (a : TyVar) (t : Ty), s[a]? = some t → ∀ b ∈ t.freeVars, b ∈ vars
  unbound_of_mem : ∀ (a : TyVar) (t : Ty), s[a]? = some t → ∀ b ∈ t.freeVars, b ∉ s

namespace Subst.Solved

theorem empty (vars : List TyVar) : Solved ∅ vars where
  mem_of_bound := by simp
  mem_of_mem := by simp
  unbound_of_mem := by simp

theorem single {a : TyVar} {t : Ty} {vars : List TyVar} (ha : a ∈ vars)
    (ht : ∀ b ∈ t.freeVars, b ∈ vars) (hat : a ∉ t.freeVars) : Solved (.single a t) vars where
  mem_of_bound b hb := by
    simp only [Std.ExtTreeMap.mem_iff_isSome_getElem?, getElem?_single] at hb
    grind
  mem_of_mem b u hu c hc := by
    rw [getElem?_single] at hu
    grind
  unbound_of_mem b u hu c hc := by
    rw [getElem?_single] at hu
    simp only [Std.ExtTreeMap.mem_iff_isSome_getElem?, getElem?_single]
    grind

/-- Applied to types over `vars`, a solution leaves no variable that it binds. -/
theorem mem_freeVars_subst {s : Subst} {vars : List TyVar} (h : s.Solved vars) {t : Ty}
    (ht : ∀ a ∈ t.freeVars, a ∈ vars) {b : TyVar} (hb : b ∈ (t.subst s).freeVars) :
    b ∈ vars ∧ b ∉ s := by
  rcases Ty.mem_freeVars_subst.1 hb with ⟨hb, hs⟩ | ⟨a, -, u, hu, hb⟩
  · exact ⟨ht b hb, hs⟩
  · exact ⟨h.mem_of_mem a u hu b hb, h.unbound_of_mem a u hu b hb⟩

/-- A solution over `vars`, then one over variables that it leaves. -/
theorem compose {s r : Subst} {vars left : List TyVar} (hr : r.Solved vars) (hs : s.Solved left)
    (hleft : ∀ b ∈ left, b ∈ vars ∧ b ∉ r) : (s.compose r).Solved vars := by
  have entry : ∀ (a : TyVar) (v : Ty), (s.compose r)[a]? = some v → ∀ b ∈ v.freeVars,
      b ∈ vars ∧ b ∉ r ∧ b ∉ s := by
    intro a v hv b hb
    rw [getElem?_compose] at hv
    cases hra : r[a]? with
    | some w =>
      simp only [hra, Option.map_some, Option.some_or, Option.some.injEq] at hv
      subst hv
      rcases Ty.mem_freeVars_subst.1 hb with ⟨hb, hbs⟩ | ⟨c, -, x, hx, hb⟩
      · exact ⟨hr.mem_of_mem a w hra b hb, hr.unbound_of_mem a w hra b hb, hbs⟩
      · have := hleft b (hs.mem_of_mem c x hx b hb)
        exact ⟨this.1, this.2, hs.unbound_of_mem c x hx b hb⟩
    | none =>
      simp only [hra, Option.map_none, Option.none_or] at hv
      have := hleft b (hs.mem_of_mem a v hv b hb)
      exact ⟨this.1, this.2, hs.unbound_of_mem a v hv b hb⟩
  refine ⟨fun b hb => ?_, fun a v hv b hb => (entry a v hv b hb).1, fun a v hv b hb => ?_⟩
  · rcases mem_compose.1 hb with hb | hb
    · exact (hleft b (hs.mem_of_bound b hb)).1
    · exact hr.mem_of_bound b hb
  · obtain ⟨-, hbr, hbs⟩ := entry a v hv b hb
    exact fun h => (mem_compose.1 h).elim hbs hbr

/-- A solution for types over `vars`, then one for what it leaves of further such types. -/
theorem compose_left {s r : Subst} {vars : List TyVar} {t u : Ty} (hr : r.Solved vars)
    (ht : ∀ a ∈ t.freeVars, a ∈ vars) (hu : ∀ a ∈ u.freeVars, a ∈ vars)
    (hs : s.Solved (Ty.fn (t.subst r) (u.subst r)).freeVars) : (s.compose r).Solved vars := by
  refine hr.compose hs fun b hb => ?_
  rcases Ty.mem_freeVars_fn.1 hb with hb | hb
  · exact hr.mem_freeVars_subst ht hb
  · exact hr.mem_freeVars_subst hu hb

theorem mono {s : Subst} {vars vars' : List TyVar} (h : s.Solved vars)
    (hsub : ∀ a ∈ vars, a ∈ vars') : s.Solved vars' where
  mem_of_bound a ha := hsub a (h.mem_of_bound a ha)
  mem_of_mem a t ht b hb := hsub b (h.mem_of_mem a t ht b hb)
  unbound_of_mem := h.unbound_of_mem

end Subst.Solved

namespace Unify

/-- Solves a variable against a type. -/
def bindVar (a : TyVar) (t : Ty) : Unification :=
  if t = .var a then ⟨.ok ∅, []⟩
  else if t.occurs a then ⟨.error (.infinite a t), []⟩
  else ⟨.ok (.single a t), [(a, t)]⟩

theorem bindVar_solved {a : TyVar} {t : Ty} {s : Subst} (h : (bindVar a t).result = .ok s)
    {vars : List TyVar} (ha : a ∈ vars) (ht : ∀ b ∈ t.freeVars, b ∈ vars) : s.Solved vars := by
  unfold bindVar at h
  split at h
  · cases h
    exact .empty vars
  · split at h
    · cases h
    · rename_i hocc
      cases h
      exact .single ha ht fun hmem => hocc (Ty.occurs_eq_true_iff.2 hmem)

/-! ### Why unification ends -/

/-- How much there is to unify: the number of distinct variables, then the size. -/
def work (t u : Ty) : Nat × Nat := ((Ty.fn t u).freeVars.length, t.size + u.size)

/-- Fewer of the same variables and smaller types are less work. -/
theorem work_lt_of_subset {t u t' u' : Ty}
    (hvars : ∀ a ∈ (Ty.fn t' u').freeVars, a ∈ (Ty.fn t u).freeVars)
    (hsize : t'.size + u'.size < t.size + u.size) :
    Prod.Lex (· < ·) (· < ·) (work t' u') (work t u) := by
  have hle := (Ty.nodup_freeVars (.fn t' u')).length_le_of_subset hvars
  rcases Nat.lt_or_eq_of_le hle with hlt | heq
  · exact .left _ _ hlt
  · unfold work
    rw [heq]
    exact .right _ hsize

/-- A variable that is lost makes fewer of them, however large the types. -/
theorem length_freeVars_lt_of_lost {t u t' u' : Ty} {a : TyVar}
    (hvars : ∀ b ∈ (Ty.fn t' u').freeVars, b ∈ (Ty.fn t u).freeVars)
    (ha : a ∈ (Ty.fn t u).freeVars) (ha' : a ∉ (Ty.fn t' u').freeVars) :
    (Ty.fn t' u').freeVars.length < (Ty.fn t u).freeVars.length := by
  have hnd : (a :: (Ty.fn t' u').freeVars).Nodup :=
    List.nodup_cons.2 ⟨ha', Ty.nodup_freeVars _⟩
  exact hnd.length_le_of_subset (List.cons_subset.2 ⟨ha, hvars⟩)

theorem work_args_lt (l r l' r' : Ty) :
    Prod.Lex (· < ·) (· < ·) (work l l') (work (.fn l r) (.fn l' r')) :=
  work_lt_of_subset (by simp; grind) (by simp [Ty.size]; omega)

/-- If the arguments bind something, then fewer variables are left of the results than the functions
had. -/
theorem length_freeVars_results_lt {l l' : Ty} (r r' : Ty) {s : Subst}
    (h : s.Solved (Ty.fn l l').freeVars) (hs : s ≠ ∅) :
    (Ty.fn (r.subst s) (r'.subst s)).freeVars.length <
      (Ty.fn (.fn l r) (.fn l' r')).freeVars.length := by
  obtain ⟨a, ha⟩ : ∃ a, a ∈ s := by
    simpa [Std.ExtTreeMap.eq_empty_iff_forall_not_mem] using hs
  have hvars : ∀ b ∈ (Ty.fn (r.subst s) (r'.subst s)).freeVars,
      b ∈ (Ty.fn (Ty.fn l r) (Ty.fn l' r')).freeVars ∧ b ∉ s := by
    have h' : s.Solved (Ty.fn (Ty.fn l r) (Ty.fn l' r')).freeVars := h.mono (by simp; grind)
    intro b hb
    rcases Ty.mem_freeVars_fn.1 hb with hb | hb
    · exact h'.mem_freeVars_subst (by simp; grind) hb
    · exact h'.mem_freeVars_subst (by simp; grind) hb
  refine length_freeVars_lt_of_lost (fun b hb => (hvars b hb).1) ?_ fun hmem => (hvars a hmem).2 ha
  have := h.mem_of_bound a ha
  simp at this ⊢
  grind

/-- What is left of the results after the arguments is less work than the functions were. -/
theorem work_results_lt {l l' : Ty} (r r' : Ty) {s : Subst} (h : s.Solved (Ty.fn l l').freeVars) :
    Prod.Lex (· < ·) (· < ·) (work (r.subst s) (r'.subst s)) (work (.fn l r) (.fn l' r')) := by
  by_cases hs : s = ∅
  · subst hs
    simp only [Ty.subst_empty]
    exact work_lt_of_subset (by simp; grind) (by simp [Ty.size]; omega)
  · exact .left _ _ (length_freeVars_results_lt r r' h hs)

/-! ### The algorithm -/

/-- Unifies two types, and knows that a solution stays within their variables. -/
def solve (t u : Ty) :
    { r : Unification // ∀ s, r.result = .ok s → s.Solved (Ty.fn t u).freeVars } :=
  match t, u with
  | .int, .int => ⟨⟨.ok ∅, []⟩, fun _ h => by cases h; exact .empty _⟩
  | .bool, .bool => ⟨⟨.ok ∅, []⟩, fun _ h => by cases h; exact .empty _⟩
  | .var a, u => ⟨bindVar a u, fun _ h => bindVar_solved h (by simp) (by simp; grind)⟩
  | t, .var a => ⟨bindVar a t, fun _ h => bindVar_solved h (by simp) (by simp; grind)⟩
  | .fn l r, .fn l' r' =>
    match solve l l' with
    | ⟨⟨.error e, log⟩, _⟩ => ⟨⟨.error e, log⟩, fun _ h => by cases h⟩
    | ⟨⟨.ok s, log⟩, hs⟩ =>
      have := work_results_lt r r' (hs s rfl)
      match solve (r.subst s) (r'.subst s) with
      | ⟨⟨.error e, log'⟩, _⟩ => ⟨⟨.error e, log ++ log'⟩, fun _ h => by cases h⟩
      | ⟨⟨.ok s', log'⟩, hs'⟩ => ⟨⟨.ok (s'.compose s), log ++ log'⟩, fun _ h => by
          cases h
          exact ((hs s rfl).mono (by simp; grind)).compose_left (by simp; grind) (by simp; grind)
            (hs' s' rfl)⟩
  | t, u => ⟨⟨.error (.mismatch t u), []⟩, fun _ h => by cases h⟩
termination_by work t u
decreasing_by
  · exact work_args_lt ..
  · assumption

end Unify

/-- Unifies two types. -/
def unify (t u : Ty) : Unification := (Unify.solve t u).1

/-- Goes on from a solution with what is left to solve under it. -/
def Unification.andThen (r : Unification) (next : Subst → Unification) : Unification :=
  match r.result with
  | .error e => ⟨.error e, r.bindings⟩
  | .ok s =>
    match (next s).result with
    | .error e => ⟨.error e, r.bindings ++ (next s).bindings⟩
    | .ok s' => ⟨.ok (s'.compose s), r.bindings ++ (next s).bindings⟩

theorem unify_int_int : unify .int .int = ⟨.ok ∅, []⟩ := by
  rw [unify, Unify.solve]

theorem unify_bool_bool : unify .bool .bool = ⟨.ok ∅, []⟩ := by
  rw [unify, Unify.solve]

theorem unify_var_left (a : TyVar) (u : Ty) : unify (.var a) u = Unify.bindVar a u := by
  rw [unify, Unify.solve]

theorem unify_var_right {t : Ty} (a : TyVar) (ht : t.isVar = false) :
    unify t (.var a) = Unify.bindVar a t := by
  cases t with
  | var b => simp [Ty.isVar] at ht
  | fn l r => rw [unify, Unify.solve]; simp
  | int | bool => rw [unify, Unify.solve]; simp

theorem unify_fn_fn (l r l' r' : Ty) :
    unify (.fn l r) (.fn l' r') =
      (unify l l').andThen fun s => unify (r.subst s) (r'.subst s) := by
  rw [unify, Unify.solve, Unification.andThen, unify]
  split <;> rename_i h <;> simp only [h]
  split <;> rename_i h' <;> simp only [unify, h']

/-- A solution stays within the variables of the two types. -/
theorem unify_solved {t u : Ty} {s : Subst} (h : (unify t u).result = .ok s) :
    s.Solved (Ty.fn t u).freeVars :=
  (Unify.solve t u).2 s h

end LetPoly
