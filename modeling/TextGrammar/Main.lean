import TextGrammar.CommandLine.Basic

/-!
# TextGrammar.Main — the program

Gathers what a run reads, runs it, and writes what it reports.  Arguments are Unicode texts.  No log is
kept: standard error holds the complaint of the report alone, and no variable of the environment is
looked at.
-/

namespace TextGrammar.Main

/-- The error of a file that a numbered failure stands for; some failures come with the negated
number. -/
def numberedError (number : UInt32) (reason : String) : FileError :=
  match (if number < 0x80000000 then number else 0 - number).toNat with
  | 2 => .notFound
  | 20 => .notDirectory
  | 21 => .isDirectory
  | n => .refused reason.toList n

/-- The error of a file that a failed operation stands for. -/
def fileError : IO.Error → FileError
  | .noFileOrDirectory .. => .notFound
  | .inappropriateType _ number reason => numberedError number reason
  | .permissionDenied _ number reason => numberedError number reason
  | .invalidArgument _ number reason => numberedError number reason
  | .resourceExhausted _ number reason => numberedError number reason
  | .noSuchThing _ number reason => numberedError number reason
  | e => .refused e.toString.toList 5

def readFile (path : Text) : IO (Except FileError ByteArray) := do
  try
    return .ok (← IO.FS.readBinFile (String.ofList path))
  catch e =>
    return .error (fileError e)

partial def readAll (stream : IO.FS.Stream) (bytes : ByteArray) : IO ByteArray := do
  let more ← stream.read 65536
  if more.isEmpty then return bytes else readAll stream (bytes ++ more)

/-- Standard input, unless it is a terminal. -/
def readInput : IO (Option ByteArray) := do
  let stream ← IO.getStdin
  if ← stream.isTty then return none else return some (← readAll stream ByteArray.empty)

/-- The files and the standard input that the arguments call for. -/
def gather (arguments : List Text) : IO (Files × Option ByteArray) := do
  let nothing : Files := fun _ => .error .notFound
  match CommandLine.readArguments arguments with
  | .ok (.expand { rules := some path, .. }) =>
    let content ← readFile path
    return (fun _ => content, none)
  | .ok (.expand { rules := none, .. }) => return (nothing, ← readInput)
  | _ => return (nothing, none)

/-- **For arguments that are rejected or ask for help nothing is read**, neither a file nor standard
input. -/
theorem gather_of_not_expand {arguments : List Text}
    (h : ∀ o, CommandLine.readArguments arguments ≠ .ok (.expand o)) :
    gather arguments = pure (fun _ => .error .notFound, none) := by
  unfold gather
  cases hread : CommandLine.readArguments arguments with
  | error e => rfl
  | ok request =>
    cases request with
    | help => rfl
    | expand o => exact absurd hread (h o)

end TextGrammar.Main

open TextGrammar in
def main (arguments : List String) : IO UInt32 := do
  let arguments := arguments.map String.toList
  let (files, input) ← Main.gather arguments
  let clock := UInt64.ofNat (← IO.monoNanosNow)
  match CommandLine.run unguardedNesting arguments files input clock with
  | some report =>
    (← IO.getStdout).putStr (String.ofList report.output)
    (← IO.getStderr).putStr (String.ofList report.complaint)
    return UInt32.ofNat report.code
  | none =>
    (← IO.getStderr).putStrLn "Error: the expansion nests too deep"
    return 1
