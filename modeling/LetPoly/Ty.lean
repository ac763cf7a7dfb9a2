/-!
# Types and type schemes

A type is built from variables, `Int`, `Bool` and the function arrow. A scheme is a type with some
of its variables quantified. The variables of a type are listed in the order in which they first
appear, which is the order in which generalization quantifies and printing names them.
-/

namespace LetPoly

/-- The name of a type variable. Any text will do. -/
abbrev TyVar := String

inductive Ty where
  | var (name : TyVar)
  | fn (arg res : Ty)
  | int
  | bool
  deriving DecidableEq, Repr

namespace Ty

/-- The type of a function that takes its arguments one by one. -/
def curried (params : List Ty) (res : Ty) : Ty := params.foldr .fn res

def isVar : Ty → Bool
  | .var _ => true
  | _ => false

def isFn : Ty → Bool
  | .fn .. => true
  | _ => false

def isPrimitive : Ty → Bool
  | .int | .bool => true
  | _ => false

/-- Whether a variable appears in a type. -/
def occurs (a : TyVar) : Ty → Bool
  | .var b => a == b
  | .fn t u => t.occurs a || u.occurs a
  | .int | .bool => false

/-- The variables of a type, each once, in the order of their first appearance. -/
def freeVars : Ty → List TyVar
  | .var a => [a]
  | .fn t u =>
    let seen := t.freeVars
    seen ++ u.freeVars.filter (· ∉ seen)
  | .int | .bool => []

@[simp] theorem freeVars_var (a : TyVar) : (var a).freeVars = [a] := rfl

@[simp] theorem freeVars_int : int.freeVars = [] := rfl

@[simp] theorem freeVars_bool : bool.freeVars = [] := rfl

theorem freeVars_fn (t u : Ty) :
    (fn t u).freeVars = t.freeVars ++ u.freeVars.filter (· ∉ t.freeVars) := rfl

@[simp] theorem mem_freeVars_fn {a : TyVar} {t u : Ty} :
    a ∈ (fn t u).freeVars ↔ a ∈ t.freeVars ∨ a ∈ u.freeVars := by
  by_cases h : a ∈ t.freeVars <;> simp [freeVars_fn, h]

theorem nodup_freeVars (t : Ty) : t.freeVars.Nodup := by
  induction t with
  | var a => simp
  | fn t u iht ihu =>
    rw [freeVars_fn, List.nodup_append]
    refine ⟨iht, ihu.filter _, fun a ha b hb => ?_⟩
    rintro rfl
    simp_all
  | int | bool => simp

theorem occurs_eq_true_iff {a : TyVar} {t : Ty} : t.occurs a = true ↔ a ∈ t.freeVars := by
  induction t with
  | var b => simp [occurs]
  | fn t u iht ihu => simp [occurs, iht, ihu]
  | int | bool => simp [occurs]

/-- The number of arrows and leaves of a type. -/
def size : Ty → Nat
  | .fn t u => t.size + u.size + 1
  | .var _ | .int | .bool => 1

end Ty

/-- A type with quantified variables. A name may be listed twice, or not appear in the body. -/
structure Scheme where
  vars : List TyVar
  body : Ty
  deriving DecidableEq, Repr

namespace Scheme

/-- A type with nothing quantified. -/
def mono (t : Ty) : Scheme := ⟨[], t⟩

/-- Whether nothing is quantified. -/
def isMono (σ : Scheme) : Bool := σ.vars.isEmpty

/-- The variables of the body that are not quantified. -/
def freeVars (σ : Scheme) : List TyVar := σ.body.freeVars.filter (· ∉ σ.vars)

/-- Every name in a scheme, quantified or not. -/
def names (σ : Scheme) : List TyVar := σ.vars ++ σ.body.freeVars

@[simp] theorem mem_freeVars {a : TyVar} {σ : Scheme} :
    a ∈ σ.freeVars ↔ a ∈ σ.body.freeVars ∧ a ∉ σ.vars := by
  simp [freeVars]

@[simp] theorem freeVars_mono (t : Ty) : (mono t).freeVars = t.freeVars := by
  simp [freeVars, mono]

end Scheme

end LetPoly
