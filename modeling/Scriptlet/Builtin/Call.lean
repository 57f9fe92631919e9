import Scriptlet.Host
import Scriptlet.Value.Text

/-!
# Calling builtin functions

A builtin function never stops a script: misused, it answers with a failure value that says why.
The number of arguments is looked at before their kinds.  `rest` and `push` make new arrays and
leave the array they are given alone.
-/

namespace Scriptlet

namespace Builtin

/-- The answer to a wrong number of arguments. -/
def wrongArity (got want : Nat) : Value :=
  .failure ("wrong number of arguments. got=" ++ Nat.repr got ++ ", want=" ++ Nat.repr want)

/-- What a builtin function says of an argument that it does not take, up to the kind of the
argument. -/
def refusal : Builtin → String
  | len => "argument to `len` not supported, got "
  | function => "argument to `" ++ function.name ++ "` must be ARRAY, got "

/-- The answer of a builtin function to an argument that it does not take. -/
def refuse (function : Builtin) (argument : Value) : Value :=
  .failure (function.refusal ++ argument.kind.text)

/-- The number of characters of a string or of elements of an array. -/
def length : List Value → Value
  | [.string _ contents] => .integer (Int64.ofNat contents.length)
  | [.array _ elements] => .integer (Int64.ofNat elements.length)
  | [other] => refuse len other
  | arguments => wrongArity arguments.length 1

/-- The first element of an array, or `null`. -/
def firstElement : List Value → Value
  | [.array _ elements] => elements.headD .null
  | [other] => refuse first other
  | arguments => wrongArity arguments.length 1

/-- The last element of an array, or `null`. -/
def lastElement : List Value → Value
  | [.array _ elements] => elements.getLastD .null
  | [other] => refuse last other
  | arguments => wrongArity arguments.length 1

/-- A new array of all elements but the first, or `null` if there is no first. -/
def restElements (host : Host) : List Value → Value × Host
  | [.array _ []] => (.null, host)
  | [.array _ (_ :: elements)] => (.array host.stamp elements, host.used)
  | [other] => (refuse rest other, host)
  | arguments => (wrongArity arguments.length 1, host)

/-- A new array with one more element at its end. -/
def pushElement (host : Host) : List Value → Value × Host
  | [.array _ elements, value] => (.array host.stamp (elements ++ [value]), host.used)
  | [other, _] => (refuse push other, host)
  | arguments => (wrongArity arguments.length 2, host)

/-- Prints every value on a line of its own. -/
def printAll (host : Host) (values : List Value) : Host :=
  values.foldl (fun host v => host.print v.text) host

theorem made_printAll (host : Host) (values : List Value) :
    (printAll host values).made = host.made := by
  unfold printAll
  induction values generalizing host with
  | nil => rfl
  | cons v rest ih => exact ih _

/-- The answer of a builtin function to its arguments, with the host afterwards. -/
def call (function : Builtin) (arguments : List Value) (host : Host) : Value × Host :=
  match function with
  | len => (length arguments, host)
  | puts => (.null, printAll host arguments)
  | first => (firstElement arguments, host)
  | last => (lastElement arguments, host)
  | rest => restElements host arguments
  | push => pushElement host arguments

end Builtin

end Scriptlet
