import Scriptlet.Builtin
import Scriptlet.Bytecode.Instruction
import Scriptlet.Tree

/-!
# Values

The values that scripts compute with, shared by the machine and the evaluator.  Integers are 64-bit
words with wrap-around.

## Identity

Scripts can ask whether two arrays, hashes or functions are the same object.  Every value that has
an identity of its own carries a `Stamp`, given to it when it was made; copies keep it.  A constant
of compiled code is stamped with its position in the constant pool, all other values with a running
number, so that compiling leaves the running number alone.
-/

namespace Scriptlet

/-- The identity of a value that was made once and may be held in many places. -/
inductive Stamp where
  /-- A constant of compiled code, by its position in the pool. -/
  | constant (index : Nat)
  /-- A value made while running, by its running number. -/
  | made (number : Nat)
  deriving DecidableEq, Inhabited

/-- A compiled function body. -/
structure Routine where
  code : Code := #[]
  /-- How many slots its locals take, parameters included. -/
  locals : Nat := 0
  parameters : Nat := 0
  deriving DecidableEq, Inhabited

/-- The values by which a hash can be looked up. -/
inductive Key where
  | integer (value : Int64)
  | boolean (value : Bool)
  | string (contents : String)
  deriving DecidableEq, Inhabited

/-- The values of scripts. -/
inductive Value where
  | integer (value : Int64)
  | boolean (value : Bool)
  | null
  | string (stamp : Stamp) (contents : String)
  | array (stamp : Stamp) (elements : List Value)
  /-- A hash; its keys are distinct and ascend. -/
  | hash (stamp : Stamp) (entries : List (Key × Value))
  /-- A compiled function body without the values that it captures. -/
  | routine (stamp : Stamp) (routine : Routine)
  /-- A function of the machine. -/
  | closure (stamp : Stamp) (routine : Routine) (free : List Value)
  | builtin (function : Builtin)
  /-- A function of the evaluator with the environment it was made in. -/
  | function (stamp : Stamp) (literal : FunctionLiteral) (environment : Nat)
  /-- A value on its way out of a function body of the evaluator. -/
  | returned (value : Value)
  /-- What a builtin function answers when it is misused. -/
  | failure (message : String)
  deriving Inhabited

/-- The kinds of values. -/
inductive Kind where
  | integer
  | boolean
  | null
  | string
  | array
  | hash
  | routine
  | closure
  | builtin
  | function
  | returned
  | failure
  deriving DecidableEq, Inhabited

/-- The name of a kind in messages. -/
def Kind.text : Kind → String
  | integer => "INTEGER"
  | boolean => "BOOLEAN"
  | null => "NULL"
  | string => "STRING"
  | array => "ARRAY"
  | hash => "HASH"
  | routine => "COMPILED_FUNCTION"
  | closure => "CLOSURE"
  | builtin => "BUILTIN"
  | function => "FUNCTION"
  | returned => "RETURN_VALUE"
  | failure => "ERROR"

namespace Value

/-- The kind of a value. -/
def kind : Value → Kind
  | integer _ => .integer
  | boolean _ => .boolean
  | null => .null
  | string _ _ => .string
  | array _ _ => .array
  | hash _ _ => .hash
  | routine _ _ => .routine
  | closure _ _ _ => .closure
  | builtin _ => .builtin
  | function _ _ _ => .function
  | returned _ => .returned
  | failure _ => .failure

/-- Whether a condition with this value holds: all values do but `null` and `false`. -/
def isTruthy : Value → Bool
  | null => false
  | boolean false => false
  | _ => true

/-- Whether the value is the answer of a misused builtin function. -/
def isFailure : Value → Bool
  | failure _ => true
  | _ => false

/-- The key that a value is as an index of a hash; only integers, booleans and strings are keys. -/
def key? : Value → Option Key
  | integer value => some (.integer value)
  | boolean value => some (.boolean value)
  | string _ contents => some (.string contents)
  | _ => none

end Value

end Scriptlet
