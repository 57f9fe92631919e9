import Scriptlet.CommandLine
import Scriptlet.Console

/-!
# Running from the command line

The outermost layer: it reads the standard input and files, and writes reports.  `main` runs one
script; `Console.interact` is the console on the standard streams.
-/

namespace Scriptlet

/-- Writes a report to the standard streams and answers with its exit code. -/
def Report.emit (report : Report) : IO UInt32 := do
  IO.print report.stdout
  IO.eprint report.stderr
  return UInt32.ofNat report.exit

/-- Reads the script that a request names; a file that cannot be read has none. -/
def CommandLine.Request.source (request : CommandLine.Request) : IO (Option String) := do
  match request.file with
  | none => return some (← (← IO.getStdin).readToEnd)
  | some file =>
    try
      return some (← IO.FS.readFile file)
    catch _ =>
      return none

/-- Runs the script that the words of the command line ask for. -/
def CommandLine.run (words : List String) : IO UInt32 := do
  match CommandLine.Request.ofWords {} words with
  | .error report => report.emit
  | .ok request => (request.report (← request.source)).emit

/-- Feeds lines to a console and writes what it answers, until it has ended or there are no more. -/
partial def Console.loop (input : IO.FS.Stream) (console : Console) : IO Unit := do
  let _ ← console.report.emit
  if !console.ended then
    let line ← input.getLine
    if !line.isEmpty then
      Console.loop input ({ console with report := {} }.feed line)

/-- The console on the standard streams. -/
def Console.interact : IO Unit := do
  Console.loop (← IO.getStdin) Console.start

end Scriptlet

/-- Runs a script from a file or from the standard input. -/
def main (words : List String) : IO UInt32 := Scriptlet.CommandLine.run words
