import Scriptlet.Value

/-!
# What a running script needs from outside

A running script makes values with an identity of their own and prints.  The host hands out the
stamps and keeps what was printed; the machine and the evaluator each carry one.
-/

namespace Scriptlet

/-- The running number of stamps and the printed text. -/
structure Host where
  /-- How many stamps have been handed out. -/
  made : Nat := 0
  /-- Everything printed so far. -/
  output : String := ""
  deriving Inhabited

namespace Host

/-- The next stamp. -/
def stamp (host : Host) : Stamp := .made host.made

/-- The host once its next stamp is used. -/
def used (host : Host) : Host := { host with made := host.made + 1 }

/-- Prints a line. -/
def print (host : Host) (line : String) : Host :=
  { host with output := host.output ++ line ++ "\n" }

end Host

end Scriptlet
