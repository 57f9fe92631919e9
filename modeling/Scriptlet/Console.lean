import Scriptlet.Bytecode.Listing
import Scriptlet.Report
import Scriptlet.Session
import Scriptlet.Text.Blank

/-!
# The console

A session in which every line is a program.  Blank characters at the ends of a line do not count; an
empty line does nothing, `exit` ends the session, and `:dis` turns the listing of bytecode on and
off.  Any other line is run, and its result is shown if it ends in an expression.
-/

namespace Scriptlet

/-- A session with what it has written so far. -/
structure Console where
  session : Session
  /-- Whether the bytecode of a line is listed before it runs. -/
  listing : Bool := false
  /-- Whether the session has been ended. -/
  ended : Bool := false
  report : Report := {}

namespace Console

/-- What a console writes before its first line. -/
def greeting : String :=
  "\nWelcome to the Rime programming language REPL!\n" ++
  "You may type Rime code below for evaluation.\n" ++
  "Enter ':dis' to toggle bytecode disassembly.\n" ++
  "Enter 'exit' or press 'CTRL+C' to exit the REPL.\n" ++
  "    \n" ++
  "No previous history.\n"

/-- A console before its first line. -/
def start : Console where
  session := .start
  report := { stdout := greeting }

/-- Shows why a line has no result. -/
def complain (console : Console) (context message : String) : Console :=
  { console with report := console.report.complain (context ++ ": " ++ message) }

/-- Moves what the session has printed into the report. -/
def collect (console : Console) : Console :=
  let { session, listing, ended, report } := console
  let output := session.host.output
  { session := { session with host := { session.host with output := "" } }
    listing, ended
    report := report.write output }

/-- Runs a program. -/
def runProgram (console : Console) (program : Program) : Console :=
  let { session, listing, ended, report } := console
  match session.compile program with
  | (.error e, session) =>
    ({ session, listing, ended, report } : Console).complain "Error compiling" e.message
  | (.ok bytecode, session) =>
    let report := if listing then report.print ((bytecode.code.listing?).getD "") else report
    let (result, m, session) := session.execute bytecode
    let console := ({ session, listing, ended, report } : Console).collect
    match result with
    | .error halt => console.complain "Error running" halt.message
    | .ok _ =>
      if program.endsInExpression then
        { console with report := console.report.print m.lastPopped.text }
      else console

/-- Runs a line that is a program. -/
def runLine (console : Console) (line : String) : Console :=
  match Program.ofSource line with
  | .error (.lexical e) => console.complain "Error lexing" e.message
  | .error (.grammatical e) => console.complain "Error parsing" e.message
  | .ok program => console.runProgram program

/-- Switches the listing of bytecode. -/
def toggleListing (console : Console) : Console :=
  let listing := !console.listing
  { console with
    listing := listing
    report := console.report.print ("Disassembly " ++ if listing then "on" else "off") }

/-- Takes a line; there is nothing more to take once the session has been ended. -/
def feed (console : Console) (line : String) : Console :=
  if console.ended then console
  else
    match trimBlank line with
    | "exit" => { console with ended := true }
    | "" => console
    | ":dis" => console.toggleListing
    | line => console.runLine line

/-- The report on a session with a given input. -/
def transcript (input : String) : Report :=
  ((input.splitOn "\n").foldl feed start).report

end Console

end Scriptlet
