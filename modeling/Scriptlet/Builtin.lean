/-!
# The builtin functions

The functions that every script can call without defining them.  Their order is part of compiled
code, which names a builtin function by its position.
-/

namespace Scriptlet

/-- The builtin functions. -/
inductive Builtin where
  | len
  | puts
  | first
  | last
  | rest
  | push
  deriving DecidableEq, Inhabited

namespace Builtin

/-- All builtin functions in the order by which compiled code names them. -/
def all : List Builtin := [len, puts, first, last, rest, push]

/-- The name of a builtin function in scripts. -/
def name : Builtin → String
  | len => "len"
  | puts => "puts"
  | first => "first"
  | last => "last"
  | rest => "rest"
  | push => "push"

/-- The builtin function with a given name. -/
def ofName? (name : String) : Option Builtin := all.find? fun b => b.name == name

end Builtin

end Scriptlet
