import Scriptlet.Bytecode.Listing
import Scriptlet.Evaluation.Evaluate
import Scriptlet.Report
import Scriptlet.Session

/-!
# The command line

Runs one script with one of the two engines and shows its result.  The result is shown only if the
script ends in an expression, and not if it is `null`.  What was printed before an error stays
printed.
-/

namespace Scriptlet

namespace CommandLine

/-- The two ways to run a script. -/
inductive Engine where
  | machine
  | evaluator
  deriving DecidableEq, Inhabited

/-- The engine that a command line asks for. -/
def Engine.ofName? : String → Option Engine
  | "vm" => some machine
  | "eval" => some evaluator
  | _ => none

/-- What a command line asks for. -/
structure Request where
  engine : Engine := .machine
  /-- Whether to show the bytecode before running it. -/
  disassemble : Bool := false
  /-- The file that holds the script, unless it comes from the standard input. -/
  file : Option String := none
  deriving DecidableEq, Inhabited

/-- A text with every line but the first set in by four blanks. -/
def indented (text : String) : String := String.intercalate "\n    " (text.splitOn "\n")

/-- Ends a report with a failure, what was being done and why it failed. -/
def failed (report : Report) (context message : String) : Report :=
  { report with exit := 1 }.complain
    ("Error: " ++ context ++ "\n\nCaused by:\n    " ++ indented message)

/-- The report on a name that no engine has. -/
def unknownEngine (name : String) : Report :=
  { exit := 2,
    stderr := "error: invalid value '" ++ name ++ "' for '--engine <ENGINE>'\n" ++
      "  [possible values: vm, eval]\n\nFor more information, try '--help'.\n" }

/-- Reads the words of a command line, given what those before them ask for. -/
def Request.ofWords (request : Request) : List String → Except Report Request
  | "--engine" :: name :: rest =>
    match Engine.ofName? name with
    | some engine => { request with engine := engine }.ofWords rest
    | none => .error (unknownEngine name)
  | "--disassemble" :: rest => { request with disassemble := true }.ofWords rest
  | file :: rest => { request with file := some file }.ofWords rest
  | [] => .ok request

/-- The line that shows the constant at a position. -/
def constantLine (constant : Value) (index : Nat) : String :=
  "constant " ++ zeroPadded 4 index ++ ": " ++ constant.text

/-- Shows bytecode: the listing, then every constant. -/
def showBytecode (report : Report) (bytecode : Bytecode) : Report :=
  bytecode.constants.toList.zipIdx.foldl (fun report c => report.print (constantLine c.1 c.2))
    (report.print ((bytecode.code.listing?).getD ""))

/-- Shows the result of a script that came to its end. -/
def showResult (report : Report) (program : Program) (result : Value) : Report :=
  if program.endsInExpression then
    match result with
    | .null => report
    | value => report.print value.text
  else report

/-- Runs a program on the machine. -/
def runMachine (disassemble : Bool) (program : Program) : Report :=
  match Session.start.compile program with
  | (.error e, _) => failed {} "Compiler error" e.message
  | (.ok bytecode, session) =>
    let report : Report := if disassemble then showBytecode {} bytecode else {}
    match session.execute bytecode with
    | (.ok _, m, after) => showResult (report.write after.host.output) program m.lastPopped
    | (.error halt, _, after) =>
      failed (report.write after.host.output) "Runtime error" halt.message

/-- Runs a program with the evaluator. -/
def runEvaluator (program : Program) : Report :=
  match Store.start.evaluate 0 program with
  | (.ok value, after) => showResult (({} : Report).write after.host.output) program value
  | (.error stop, after) =>
    failed (({} : Report).write after.host.output) "Runtime error" stop.message

/-- Runs a script.  There is no source if the file that should hold it does not exist. -/
def Request.report (request : Request) (source : Option String) : Report :=
  match source with
  | none =>
    failed {} ("Failed to read file: " ++ request.file.getD "")
      "No such file or directory (os error 2)"
  | some source =>
    match Program.ofSource source with
    | .error (.lexical e) => failed {} "Lexer error" e.message
    | .error (.grammatical e) => failed {} "Parser error" e.message
    | .ok program =>
      match request.engine with
      | .machine => runMachine request.disassemble program
      | .evaluator => runEvaluator program

end CommandLine

end Scriptlet
