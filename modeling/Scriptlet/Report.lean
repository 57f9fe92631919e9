/-!
# Reports

What a program of the command line leaves behind: its exit code and what it wrote.
-/

namespace Scriptlet

/-- The outcome of a program of the command line. -/
structure Report where
  exit : Nat := 0
  stdout : String := ""
  stderr : String := ""
  deriving DecidableEq, Inhabited

namespace Report

/-- Writes a line to the standard output. -/
def print (report : Report) (line : String) : Report :=
  { report with stdout := report.stdout ++ line ++ "\n" }

/-- Writes a text to the standard output as it is. -/
def write (report : Report) (text : String) : Report :=
  { report with stdout := report.stdout ++ text }

/-- Writes a line to the standard error output. -/
def complain (report : Report) (line : String) : Report :=
  { report with stderr := report.stderr ++ line ++ "\n" }

end Report

end Scriptlet
