import LetPoly.Ty
import Std.Data.ExtTreeMap

/-!
# Substitutions and environments

A substitution maps finitely many type variables to types, an environment finitely many names to
schemes. Two of either that map alike are equal. Applying a substitution replaces every variable at
once; applying it to a scheme leaves the quantified variables alone and renames nothing.
-/

namespace LetPoly

abbrev Subst := Std.ExtTreeMap TyVar Ty

abbrev Env := Std.ExtTreeMap String Scheme

/-- Replaces the variables of a type. -/
def Ty.subst (s : Subst) : Ty → Ty
  | .var a => s[a]?.getD (.var a)
  | .fn t u => .fn (t.subst s) (u.subst s)
  | .int => .int
  | .bool => .bool

@[simp] theorem Ty.subst_empty (t : Ty) : t.subst ∅ = t := by
  induction t with
  | var a => simp [subst]
  | fn t u iht ihu => simp [subst, iht, ihu]
  | int | bool => rfl

/-- A variable of the result was there before and has no entry, or comes with an entry. -/
theorem Ty.mem_freeVars_subst {b : TyVar} {s : Subst} {t : Ty} :
    b ∈ (t.subst s).freeVars ↔
      (b ∈ t.freeVars ∧ b ∉ s) ∨ ∃ a ∈ t.freeVars, ∃ u, s[a]? = some u ∧ b ∈ u.freeVars := by
  induction t with
  | var a =>
    cases h : s[a]? with
    | none =>
      have ha : a ∉ s := by simpa using h
      simp only [subst, h, Option.getD_none, freeVars_var, List.mem_singleton]
      grind
    | some u =>
      have ha : a ∈ s := Std.ExtTreeMap.mem_iff_isSome_getElem?.2 (by simp [h])
      simp only [subst, h, Option.getD_some, freeVars_var, List.mem_singleton]
      grind
  | fn t u iht ihu =>
    simp only [subst, mem_freeVars_fn, iht, ihu]
    grind
  | int | bool => simp [subst]

namespace Subst

/-- Pairs in a list; of two for one variable, the later counts. -/
def ofList (pairs : List (TyVar × Ty)) : Subst := Std.ExtTreeMap.ofList pairs

def single (a : TyVar) (t : Ty) : Subst := (∅ : Subst).insert a t

/-- First `r`, then `s`: where `r` has an entry, `s` is applied to it, and the other entries of `s`
stay. -/
def compose (s r : Subst) : Subst := s ∪ r.map fun _ t => t.subst s

/-- Forgets the entries of some variables. -/
def without (s : Subst) (vars : List TyVar) : Subst := s.filter fun a _ => a ∉ vars

@[simp] theorem getElem?_single (a b : TyVar) (t : Ty) :
    (single a t)[b]? = if a = b then some t else none := by
  simp [single, Std.ExtTreeMap.getElem?_insert, Std.LawfulEqCmp.compare_eq_iff_eq]

theorem getElem?_compose (s r : Subst) (a : TyVar) :
    (s.compose r)[a]? = (r[a]?.map (·.subst s)).or s[a]? := by
  simp [compose, Std.ExtTreeMap.getElem?_union, Std.ExtTreeMap.getElem?_map]

theorem mem_compose {s r : Subst} {a : TyVar} : a ∈ s.compose r ↔ a ∈ s ∨ a ∈ r := by
  simp [compose]

@[simp] theorem subst_compose (s r : Subst) (t : Ty) :
    t.subst (s.compose r) = (t.subst r).subst s := by
  induction t with
  | var a =>
    simp only [Ty.subst, getElem?_compose]
    cases r[a]? <;> simp [Ty.subst]
  | fn t u iht ihu => simp [Ty.subst, iht, ihu]
  | int | bool => rfl

@[simp] theorem compose_empty (s : Subst) : s.compose ∅ = s := by
  refine Std.ExtTreeMap.ext_getElem? fun a => ?_
  simp [getElem?_compose]

@[simp] theorem empty_compose (s : Subst) : compose ∅ s = s := by
  refine Std.ExtTreeMap.ext_getElem? fun a => ?_
  simp [getElem?_compose]

/-- Three substitutions in a row, whichever two are put together first. -/
theorem compose_assoc (s r q : Subst) : s.compose (r.compose q) = (s.compose r).compose q := by
  refine Std.ExtTreeMap.ext_getElem? fun a => ?_
  simp only [getElem?_compose]
  cases q[a]? <;> simp

end Subst

/-- Replaces the free variables of a scheme. -/
def Scheme.subst (s : Subst) (σ : Scheme) : Scheme := ⟨σ.vars, σ.body.subst (s.without σ.vars)⟩

namespace Env

def ofList (pairs : List (String × Scheme)) : Env := Std.ExtTreeMap.ofList pairs

/-- Replaces the free variables of every scheme. -/
def subst (s : Subst) (env : Env) : Env := env.map fun _ σ => σ.subst s

/-- The schemes that are bound to names. -/
def schemes (env : Env) : List Scheme := env.toList.map Prod.snd

/-- The free variables of all schemes. -/
def freeVars (env : Env) : List TyVar := env.schemes.flatMap Scheme.freeVars

/-- Quantifies the variables of a type that are not free in the environment. -/
def generalize (env : Env) (t : Ty) : Scheme :=
  let fixed := env.freeVars
  ⟨t.freeVars.filter (· ∉ fixed), t⟩

@[simp] theorem mem_schemes {env : Env} {σ : Scheme} :
    σ ∈ env.schemes ↔ ∃ x : String, env[x]? = some σ := by
  simp [schemes, Std.ExtTreeMap.mem_toList_iff_getElem?_eq_some]

theorem mem_freeVars {env : Env} {a : TyVar} :
    a ∈ env.freeVars ↔ ∃ (x : String) (σ : Scheme), env[x]? = some σ ∧ a ∈ σ.freeVars := by
  simp only [freeVars, List.mem_flatMap, mem_schemes]
  grind

@[simp] theorem body_generalize (env : Env) (t : Ty) : (env.generalize t).body = t := rfl

@[simp] theorem mem_vars_generalize {env : Env} {t : Ty} {a : TyVar} :
    a ∈ (env.generalize t).vars ↔ a ∈ t.freeVars ∧ a ∉ env.freeVars := by
  simp [generalize]

@[simp] theorem getElem?_subst (env : Env) (s : Subst) (x : String) :
    (env.subst s)[x]? = env[x]?.map (·.subst s) := by
  simp [subst, Std.ExtTreeMap.getElem?_map]

end Env

end LetPoly
