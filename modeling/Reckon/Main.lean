import Reckon.CommandLine

/-!
The program: it hands the arguments, the environment and the texts of its sources to the command
line and writes what comes back.
-/
open Reckon.CommandLine

def environment : IO Environment := do
  let mut found := []
  for name in [exactVariable, epsilonVariable] do
    if let some value ← IO.getEnv name then
      found := (name, value) :: found
  return found

def readError : IO.Error → ReadError
  | .noFileOrDirectory .. => .missing
  | .inappropriateType .. => .directory
  | e => .other (toString e)

def readFile (name : String) : IO (Except ReadError String) := do
  try
    return .ok (← IO.FS.readFile name)
  catch e =>
    return .error (readError e)

def write (r : Report) : IO Unit := do
  for line in r.out do
    IO.println line
  for line in r.err do
    IO.eprintln line

def main (arguments : List String) : IO UInt32 := do
  let report ← match invocation? arguments (← environment) with
    | none =>
      IO.eprintln "error: the arguments are not understood"
      pure usageReport
    | some i =>
      match i.origin with
      | .input => pure (i.run (← (← IO.getStdin).readToEnd) fun _ => .error .missing)
      | .text _ => pure (i.run "" fun _ => .error .missing)
      | .file name =>
        let text ← readFile name
        pure (i.run "" fun _ => text)
  write report
  return UInt32.ofNat report.code
