import LexicalLisp.Command

/-!
# The programs

Standard input is read to its end before anything runs. Diagnoses are written to
standard error, one line each.
-/

namespace LexicalLisp.Program

def render (d : Diagnosis) : String := d.location ++ ": " ++ d.headline ++ ": " ++ d.label

def deliver : Option Report → IO UInt32
  | none => do
    IO.eprintln "Error: the program nests too deeply"
    return 134
  | some report => do
    IO.print report.output
    for d in report.diagnoses do
      IO.eprintln (render d)
    unless report.messages.isEmpty do
      IO.eprintln report.messages
    return UInt32.ofNat report.exitCode

def readInput : IO Stream := do
  let stdin ← IO.getStdin
  return Stream.ofBytes (← stdin.readBinToEnd)

def readFile (path : String) : IO (Except FileError Stream) := do
  try
    return .ok (Stream.ofBytes (← IO.FS.readBinFile path))
  catch
    | .noFileOrDirectory .. => return .error .notFound
    | e => return .error (.other (toString e))

def dialogue : IO UInt32 := do
  let input ← readInput
  deliver (Command.dialogue? Command.depthLimit (String.ofList input.text))

def lis (args : List String) : IO UInt32 := do
  let invocation := Invocation.ofArgs args
  let contents ← match invocation with
    | .file path => readFile path
    | _ => pure (.error .notFound)
  let input ← match invocation with
    | .help => pure ⟨[], false⟩
    | _ => readInput
  deliver (Command.lis? Command.depthLimit invocation contents input)

end LexicalLisp.Program

def main (args : List String) : IO UInt32 := LexicalLisp.Program.lis args
