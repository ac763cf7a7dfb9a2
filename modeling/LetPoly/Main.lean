import LetPoly.Command

/-!
# The program

Reads the input that the command line names, and prints what `Options.run` makes of it.
-/

namespace LetPoly

/-- Everything that a stream holds. -/
partial def readStream (stream : IO.FS.Stream) (seen : ByteArray) : IO ByteArray := do
  let chunk ← stream.read 65536
  if chunk.isEmpty then return seen else readStream stream (seen ++ chunk)

/-- Whether a code stands for a system error. Codes come with either sign. -/
def isSystemError (number code : UInt32) : Bool := code = number || code = 0 - number

/-- The reason that the system gives. -/
def ReadFault.ofIOError (e : IO.Error) : ReadFault :=
  match e with
  | .noFileOrDirectory .. => .notFound
  | .inappropriateType _ code _ => if isSystemError 20 code then .notDirectory else .isDirectory
  | .invalidArgument _ code _ =>
    if isSystemError 36 code then .nameTooLong else .other (toString e)
  | _ => .other (toString e)

/-- Reads the input, as text. -/
def Options.read (o : Options) : IO (Except ReadFault String) := do
  try
    let bytes ← if o.readsStdin then readStream (← IO.getStdin) .empty else IO.FS.readBinFile o.file
    return match String.fromUTF8? bytes with
      | some text => .ok text
      | none => .error .notText
  catch e => return .error (.ofIOError e)

/-- Prints a diagnostic. -/
def Diagnostic.report (d : Diagnostic) (filename : String) : IO Unit := do
  IO.eprintln ("Error: " ++ d.headline)
  if let some location := d.location? filename then IO.eprintln ("  at " ++ location)
  if let some note := d.note then IO.eprintln ("  " ++ note)

end LetPoly

open LetPoly in
/-- Does what the arguments ask for; the answer is the exit code. -/
def main (args : List String) : IO UInt32 := do
  match Request.ofArgs args with
  | none =>
    IO.eprint helpText
    return 2
  | some .version =>
    IO.print versionText
    return 0
  | some .help =>
    IO.print helpText
    return 0
  | some (.check options) =>
    let outcome := options.run (← options.read)
    outcome.complaints.forM IO.eprintln
    outcome.log.forM IO.eprintln
    if let some d := outcome.diagnostic then d.report options.filename
    IO.print outcome.output
    return outcome.exitCode.toUInt32
