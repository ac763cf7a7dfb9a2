import LetPoly.Subst

/-!
# Substitutions as functions

An assignment gives a type to every type variable at once. It is what a substitution does without
the question of how it is stored, and it need not be finite. Statements about all substitutions are
proved for assignments, and read back for substitutions with `Ty.subst_eq_assign` and
`Subst.assignment_tabulate`.
-/

namespace LetPoly

/-- A type for every type variable. -/
abbrev Assignment := TyVar → Ty

namespace Ty

/-- Replaces every variable of a type. -/
def assign (θ : Assignment) : Ty → Ty
  | .var a => θ a
  | .fn t u => .fn (t.assign θ) (u.assign θ)
  | .int => .int
  | .bool => .bool

theorem assign_congr {θ η : Assignment} {t : Ty} (h : ∀ a ∈ t.freeVars, θ a = η a) :
    t.assign θ = t.assign η := by
  induction t with
  | var a => exact h a (by simp)
  | fn t u iht ihu =>
    have ht := iht fun a ha => h a (by simp [ha])
    have hu := ihu fun a ha => h a (by simp [ha])
    simp only [assign, ht, hu]
  | int | bool => rfl

@[simp] theorem assign_var (t : Ty) : t.assign .var = t := by
  induction t with
  | var a => rfl
  | fn t u iht ihu => simp [assign, iht, ihu]
  | int | bool => rfl

theorem assign_assign (θ η : Assignment) (t : Ty) :
    (t.assign θ).assign η = t.assign fun a => (θ a).assign η := by
  induction t with
  | var a => rfl
  | fn t u iht ihu => simp [assign, iht, ihu]
  | int | bool => rfl

/-- A type stays as it is when each of its variables does. -/
theorem assign_eq_self {θ : Assignment} {t : Ty} (h : ∀ a ∈ t.freeVars, θ a = .var a) :
    t.assign θ = t :=
  (assign_congr h).trans t.assign_var

theorem mem_freeVars_assign {b : TyVar} {θ : Assignment} {t : Ty} :
    b ∈ (t.assign θ).freeVars ↔ ∃ a ∈ t.freeVars, b ∈ (θ a).freeVars := by
  induction t with
  | var a => simp [assign]
  | fn t u iht ihu =>
    simp only [assign, mem_freeVars_fn, iht, ihu]
    grind
  | int | bool => simp [assign]

end Ty

/-- What a substitution makes of each variable. -/
def Subst.assignment (s : Subst) : Assignment := fun a => (Ty.var a).subst s

theorem Ty.subst_eq_assign (s : Subst) (t : Ty) : t.subst s = t.assign s.assignment := by
  induction t with
  | var a => rfl
  | fn t u iht ihu => simp [Ty.subst, Ty.assign, iht, ihu]
  | int | bool => rfl

namespace Subst

theorem assignment_eq (s : Subst) (a : TyVar) : s.assignment a = s[a]?.getD (.var a) := rfl

theorem assignment_of_notMem {s : Subst} {a : TyVar} (ha : a ∉ s) : s.assignment a = .var a := by
  simp [assignment_eq, Std.ExtTreeMap.getElem?_eq_none ha]

theorem mem_freeVars_assignment {s : Subst} {a b : TyVar} (hb : b ∈ (s.assignment a).freeVars) :
    b = a ∨ ∃ t, s[a]? = some t ∧ b ∈ t.freeVars := by
  rw [assignment_eq] at hb
  cases hs : s[a]? with
  | none => exact .inl (by simpa [hs] using hb)
  | some t => exact .inr ⟨t, rfl, by simpa [hs] using hb⟩

@[simp] theorem assignment_empty : (∅ : Subst).assignment = .var := by
  funext a
  exact Ty.subst_empty _

theorem assignment_compose (s r : Subst) :
    (s.compose r).assignment = fun a => (r.assignment a).assign s.assignment := by
  funext a
  rw [assignment, subst_compose, Ty.subst_eq_assign]
  rfl

theorem assignment_without (s : Subst) (vars : List TyVar) (a : TyVar) :
    (s.without vars).assignment a = if a ∈ vars then .var a else s.assignment a := by
  simp only [assignment_eq, without, Std.ExtTreeMap.getElem?_filter']
  by_cases ha : a ∈ vars
  · simp [ha]
  · cases s[a]? <;> simp [ha, Option.filter]

theorem mem_ofList {pairs : List (TyVar × Ty)} {a : TyVar} :
    a ∈ ofList pairs ↔ a ∈ pairs.map Prod.fst := by
  simp [ofList, Std.ExtTreeMap.mem_ofList]

/-- The type of a variable in a map made from pairs is one that the pairs give to it. -/
theorem mem_of_getElem?_ofList {pairs : List (TyVar × Ty)} {a : TyVar} {t : Ty}
    (h : (ofList pairs)[a]? = some t) : (a, t) ∈ pairs := by
  rw [ofList, Std.ExtTreeMap.ofList_eq_insertMany_empty,
    Std.ExtTreeMap.getElem?_insertMany_list] at h
  simp only [Std.ExtTreeMap.getElem?_empty, Option.or_none,
    List.findSomeRev?_eq_findSome?_reverse] at h
  obtain ⟨⟨b, u⟩, hmem, hfound⟩ := List.exists_of_findSome?_eq_some h
  simp only [Std.LawfulEqCmp.compare_eq_iff_eq, Option.ite_none_right_eq_some,
    Option.some.injEq] at hfound
  obtain ⟨rfl, rfl⟩ := hfound
  exact List.mem_reverse.1 hmem

/-- The part of an assignment that concerns some variables, as a substitution. -/
def tabulate (θ : Assignment) (vars : List TyVar) : Subst := ofList (vars.map fun a => (a, θ a))

theorem mem_tabulate {θ : Assignment} {vars : List TyVar} {a : TyVar} :
    a ∈ tabulate θ vars ↔ a ∈ vars := by
  simp [tabulate, mem_ofList]

theorem assignment_tabulate (θ : Assignment) {vars : List TyVar} {a : TyVar} (ha : a ∈ vars) :
    (tabulate θ vars).assignment a = θ a := by
  have hsome := Std.ExtTreeMap.mem_iff_isSome_getElem?.1 (mem_tabulate.2 ha : a ∈ tabulate θ vars)
  obtain ⟨t, ht⟩ := Option.isSome_iff_exists.1 hsome
  obtain ⟨b, -, hb⟩ := List.mem_map.1 (mem_of_getElem?_ofList ht)
  obtain ⟨rfl, rfl⟩ := Prod.mk.inj hb
  rw [assignment_eq, ht, Option.getD_some]

end Subst

theorem Ty.subst_tabulate {θ : Assignment} {vars : List TyVar} {t : Ty}
    (h : ∀ a ∈ t.freeVars, a ∈ vars) : t.subst (.tabulate θ vars) = t.assign θ := by
  rw [Ty.subst_eq_assign]
  exact Ty.assign_congr fun a ha => Subst.assignment_tabulate θ (h a ha)

/-- A type stays as it is when none of its variables is bound. -/
theorem Ty.subst_eq_self {s : Subst} {t : Ty} (h : ∀ a ∈ t.freeVars, a ∉ s) : t.subst s = t := by
  rw [Ty.subst_eq_assign]
  exact Ty.assign_eq_self fun a ha => Subst.assignment_of_notMem (h a ha)

end LetPoly
