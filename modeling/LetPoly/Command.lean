import LetPoly.Diagnostic
import LetPoly.Judgement

/-!
# The command line

`Request.ofArgs` reads the arguments from left to right: the first mistake ends it, and so does a
question for help or the version. `Options.run` is the work that was asked for, given what reading
the input came to.
-/

namespace LetPoly

/-- What to check and how. -/
structure Options where
  /-- The name of a file, or `-` for standard input. -/
  file : String
  policy : LetPolicy
  verbose : Bool
  deriving DecidableEq, Repr

inductive Request where
  | check (options : Options)
  | version
  | help
  deriving DecidableEq, Repr

namespace Request

/-- The arguments read so far. -/
structure Draft where
  file : Option String
  monoLet : Bool
  verbose : Bool
  deriving DecidableEq, Repr

namespace Draft

/-- A file may be given once, and has a name. -/
def addFile (p : Draft) (name : String) : Option Draft :=
  if name = "" ∨ p.file.isSome then none else some { p with file := name }

/-- An option may be given once. -/
def setMonoLet (p : Draft) : Option Draft :=
  if p.monoLet then none else some { p with monoLet := true }

/-- An option may be given once. -/
def setVerbose (p : Draft) : Option Draft :=
  if p.verbose then none else some { p with verbose := true }

/-- The request, if there is a file. -/
def finish (p : Draft) : Option Request :=
  p.file.map fun file =>
    .check ⟨file, if p.monoLet then .monomorphic else .generalize, p.verbose⟩

/-- Reads the one-letter options of an argument; either the request is clear, or it goes on. -/
def readLetters (p : Draft) : List Char → Option (Request ⊕ Draft)
  | [] => some (.inr p)
  | c :: cs =>
    if c = 'v' then do (← p.setVerbose).readLetters cs
    else if c = 'V' then some (.inl .version)
    else if c = 'h' then some (.inl .help)
    else none

/-- Reads an argument. -/
def readArg (p : Draft) (arg : String) : Option (Request ⊕ Draft) :=
  match arg.toList with
  | '-' :: '-' :: _ =>
    if arg = "--mono-let" then p.setMonoLet.map .inr
    else if arg = "--verbose" then p.setVerbose.map .inr
    else if arg = "--version" then some (.inl .version)
    else if arg = "--help" then some (.inl .help)
    else none
  | '-' :: c :: cs => p.readLetters (c :: cs)
  | _ => (p.addFile arg).map .inr

/-- Reads arguments, which are all files after `--`. -/
def readArgs (p : Draft) : List String → Option Request
  | [] => p.finish
  | arg :: args =>
    if arg = "--" then do (← args.foldlM addFile p).finish
    else
      match p.readArg arg with
      | none => none
      | some (.inl request) => some request
      | some (.inr p) => p.readArgs args

end Draft

/-- What arguments ask for, or nothing if they are not used as they should be. -/
def ofArgs (args : List String) : Option Request := Draft.readArgs ⟨none, false, false⟩ args

end Request

/-- Why an input could not be read. -/
inductive ReadFault where
  | notFound
  | notDirectory
  | isDirectory
  | nameTooLong
  | notText
  | other (reason : String)
  deriving DecidableEq, Repr

def ReadFault.message : ReadFault → String
  | .notFound => "No such file or directory (os error 2)"
  | .notDirectory => "Not a directory (os error 20)"
  | .isDirectory => "Is a directory (os error 21)"
  | .nameTooLong => "File name too long (os error 36)"
  | .notText => "stream did not contain valid UTF-8"
  | .other reason => reason

/-- What a run leaves behind. -/
structure Outcome where
  exitCode : Nat
  /-- Standard output. -/
  output : String
  /-- What is said about an error in the program. -/
  diagnostic : Option Diagnostic
  /-- Complaints about the input. -/
  complaints : List String
  /-- The log, in lines. -/
  log : List String
  deriving DecidableEq, Repr

namespace Options

def readsStdin (o : Options) : Bool := o.file = "-"

/-- What the input is called. -/
def filename (o : Options) : String := if o.readsStdin then "<stdin>" else o.file

/-- The complaint about an input that could not be read. -/
def complaint (o : Options) (f : ReadFault) : String :=
  (if o.readsStdin then "Error reading stdin: " else "Error reading file '" ++ o.file ++ "': ")
    ++ f.message

/-- Checks an input. -/
def run (o : Options) (input : Except ReadFault String) : Outcome :=
  match input with
  | .error f => ⟨1, "", none, [o.complaint f], []⟩
  | .ok source =>
    let report := checkSource o.policy source
    let log := if o.verbose then report.log.filterMap Event.line? else []
    match report.result with
    | .error e => ⟨1, "", some (.ofError source e), [], log⟩
    | .ok js => ⟨0, String.join (js.map (·.text ++ "\n")), none, [], log⟩

end Options

/-- The name and version of the program. -/
def versionText : String := "hmw 0.1.0\n"

/-- How the program is used. -/
def helpText : String :=
  "Infer the most general type of every statement in a program\n\n" ++
  "Usage: hmw [OPTIONS] <FILE>\n\n" ++
  "Arguments:\n" ++
  "  <FILE>  Source file, or `-` to read from stdin\n\n" ++
  "Options:\n" ++
  "      --mono-let  Do not generalize `let ... in` bindings inside expressions\n" ++
  "  -v, --verbose   Enable verbose output\n" ++
  "  -h, --help      Print help\n" ++
  "  -V, --version   Print version\n"

end LetPoly
