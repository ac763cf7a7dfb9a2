import LetPoly.Error
import LetPoly.Infer
import LetPoly.Primitives

/-!
# Checking programs

The statements of a program are checked in their order, each with fresh variables of its own. The
type of a statement is generalized, and a definition adds it to the environment of the statements
that follow. The first statement without a type ends the check.
-/

namespace LetPoly

/-- The scheme of a statement, with the name that it defines if it does. -/
structure Judgement where
  name : Option String
  scheme : Scheme
  deriving DecidableEq, Repr

def Judgement.text (j : Judgement) : String := j.name.getD "-" ++ " : " ++ j.scheme.text

/-- What a check leaves: a judgement for each statement or an error, and the log. -/
structure Report where
  result : Except Error (List Judgement)
  log : List Event

/-- The environment after a statement with a given scheme. -/
def Env.define (env : Env) (name : Option String) (σ : Scheme) : Env :=
  match name with
  | some x => env.insert x σ
  | none => env

/-- Checks statements in an environment. -/
def check (policy : LetPolicy) : Env → List (Located Statement) → Report
  | _, [] => ⟨.ok [], []⟩
  | env, s :: ss =>
    let run := inferType policy env s.val.expr
    match run.result with
    | .error e => ⟨.error ⟨.typing e, s.span⟩, run.log⟩
    | .ok t =>
      let j : Judgement := ⟨s.val.name, env.generalize t⟩
      let rest := check policy (env.define j.name j.scheme) ss
      ⟨rest.result.map (j :: ·), run.log ++ .checked j.name j.scheme :: rest.log⟩

theorem result_check_cons (policy : LetPolicy) (env : Env) (s : Located Statement)
    (ss : List (Located Statement)) :
    (check policy env (s :: ss)).result =
      match (inferType policy env s.val.expr).result with
      | .error e => .error ⟨.typing e, s.span⟩
      | .ok t => (check policy (env.define s.val.name (env.generalize t)) ss).result.map
          (⟨s.val.name, env.generalize t⟩ :: ·) := by
  simp only [check]
  cases (inferType policy env s.val.expr).result <;> rfl

/-- Reads a source text and checks it with the primitive functions at hand. -/
def checkSource (policy : LetPolicy) (source : String) : Report :=
  match Program.parse source with
  | .error e => ⟨.error e, []⟩
  | .ok p => check policy .primitives p.statements

/-! ### The log -/

/-- How much detail an event is. -/
inductive Level where
  | debug
  | trace
  deriving DecidableEq, Repr

namespace Event

def level : Event → Level
  | .bound .. | .checked .. => .debug
  | .instantiated .. | .solved .. => .trace

/-- What happened, in words. -/
def title : Event → String
  | .bound .. => "let binding"
  | .checked .. => "checked statement"
  | .instantiated .. => "instantiate"
  | .solved .. => "bind"

/-- What it happened to: names with texts. -/
def fields : Event → List (String × String)
  | .bound x σ => [("name", x), ("scheme", σ.text)]
  | .checked x σ => [("name", x.getD "-"), ("scheme", σ.text)]
  | .instantiated σ t => [("scheme", σ.text), ("instance", t.outline)]
  | .solved a t => [("var", a), ("ty", t.outline)]

/-- The line that an event is in a log without traces. -/
def line? (e : Event) : Option String :=
  match e with
  | .bound x σ => some (line e.title x σ)
  | .checked x σ => some (line e.title (x.getD "-") σ)
  | .instantiated .. | .solved .. => none
where
  /-- What happened, to which name, with which scheme. -/
  line (title name : String) (σ : Scheme) : String :=
    title ++ " name=" ++ quoted name ++ " scheme=" ++ σ.text

end Event

end LetPoly
