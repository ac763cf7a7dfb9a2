import LetPoly.Expr
import LetPoly.Ty.Fresh
import LetPoly.Unify

/-!
# Type inference

`infer` finds the type of an expression in an environment, together with a substitution for the
variables of the environment. It is a computation in `InferM`: it draws fresh variables from a
counter, it can fail with a type error, and it keeps a log of its steps. The counter and the log
are there after a failure too.
-/

namespace LetPoly

/-- What to do with the type of `bound` in `let x = bound in body`. -/
inductive LetPolicy where
  /-- Quantify the variables that are not free in the environment. -/
  | generalize
  /-- Quantify nothing, so that all uses of `x` have one type. -/
  | monomorphic
  deriving DecidableEq, Repr

/-- A step that the log shows. -/
inductive Event where
  /-- The name of a `let` got its scheme. -/
  | bound (name : String) (scheme : Scheme)
  /-- A statement, perhaps a definition of a name, got its scheme. -/
  | checked (name : Option String) (scheme : Scheme)
  /-- The quantified variables of a scheme were made fresh. -/
  | instantiated (scheme : Scheme) (ty : Ty)
  /-- Unification bound a variable. -/
  | solved (var : TyVar) (ty : Ty)
  deriving DecidableEq, Repr

/-- What a computation leaves: a value or a type error, the counter and the log. -/
structure Run (α : Type) where
  result : Except TypeError α
  next : Nat
  log : List Event

/-- A computation with a counter for fresh variables, type errors and a log. -/
def InferM (α : Type) : Type := Nat → Run α

namespace InferM

instance : Monad InferM where
  pure a := fun n => ⟨.ok a, n, []⟩
  bind x f := fun n =>
    let r := x n
    match r.result with
    | .error e => ⟨.error e, r.next, r.log⟩
    | .ok a =>
      let r' := f a r.next
      ⟨r'.result, r'.next, r.log ++ r'.log⟩

/-- Fails. -/
def fail {α : Type} (e : TypeError) : InferM α := fun n => ⟨.error e, n, []⟩

/-- Writes to the log. -/
def note (e : Event) : InferM Unit := fun n => ⟨.ok (), n, [e]⟩

/-- Draws a fresh variable. The counter is a number of any size here: it is taken not to run over its
32 bits (`TyVar.maxNumber`), after which a variable would be drawn again. -/
def fresh : InferM TyVar := fun n => ⟨.ok (TyVar.fresh n), n + 1, []⟩

/-- Draws a fresh variable for each element of a list, and pairs the two. -/
def freshFor : List TyVar → InferM (List (TyVar × Ty))
  | [] => pure []
  | a :: vars => do
    let b ← fresh
    let rest ← freshFor vars
    return (a, .var b) :: rest

/-- Replaces the quantified variables of a scheme by fresh ones. -/
def instantiate (σ : Scheme) : InferM Ty :=
  if σ.isMono then pure σ.body
  else do
    let t := σ.body.subst (.ofList (← freshFor σ.vars))
    note (.instantiated σ t)
    return t

/-- Unifies two types. -/
def unify (t u : Ty) : InferM Subst := fun n =>
  let r := LetPoly.unify t u
  ⟨r.result, n, r.bindings.map fun (a, t) => .solved a t⟩

end InferM

def Literal.ty : Literal → Ty
  | .int _ => .int
  | .bool _ => .bool

/-- The scheme that a `let` gives to its name. -/
def LetPolicy.scheme (policy : LetPolicy) (env : Env) (t : Ty) : Scheme :=
  match policy with
  | .generalize => env.generalize t
  | .monomorphic => .mono t

open InferM in
/-- Infers the type of an expression in an environment, and the substitution of the environment's
variables under which it has that type. -/
def infer (policy : LetPolicy) (env : Env) : Expr → InferM (Subst × Ty)
  | .var x =>
    match env[x]? with
    | none => fail (.unboundVariable x)
    | some σ => do return (∅, ← instantiate σ)
  | .lit l => return (∅, l.ty)
  | .app f a => do
    let (s₀, tf) ← infer policy env f
    let (s₁, ta) ← infer policy (env.subst s₀) a
    let tr := Ty.var (← fresh)
    let s₂ ← InferM.unify (tf.subst s₁) (.fn ta tr)
    return (s₂.compose (s₁.compose s₀), tr.subst s₂)
  | .abs x e => do
    let tx := Ty.var (← fresh)
    let (s, te) ← infer policy (env.insert x (.mono tx)) e
    return (s, .fn (tx.subst s) te)
  | .letIn x b e => do
    let (s₁, tb) ← infer policy env b
    let env := env.subst s₁
    let σ := policy.scheme env (tb.subst s₁)
    note (.bound x σ)
    let (s₂, te) ← infer policy (env.insert x σ) e
    return (s₂.compose s₁, te)

/-- Infers the type of an expression with fresh variables that the environment does not know. -/
def inferType (policy : LetPolicy) (env : Env) (e : Expr) : Run Ty :=
  (do let (s, t) ← infer policy env e; return t.subst s : InferM Ty) env.firstFresh

end LetPoly
