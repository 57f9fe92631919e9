import Scriptlet.Evaluation.Error
import Scriptlet.Host
import Std.Data.TreeMap

/-!
# Environments of the evaluator

An environment binds names to values and may have an outer one, where the names it does not bind are
looked for.  Functions hold on to the environment they were made in and bindings can be added to it
later, so environments live in a `Store` and are referred to by number.

An environment is made after the one around it, so its outer environment has a smaller number.  This
is what looking up goes by: a chain of environments is finite because the numbers fall.
-/

namespace Scriptlet

/-- Bindings, and the environment around them. -/
structure Environment where
  bindings : Std.TreeMap String Value := ∅
  outer : Option Nat := none
  deriving Inhabited

/-- All environments, with the host. -/
structure Store where
  environments : Array Environment := #[]
  host : Host := {}
  deriving Inhabited

namespace Store

/-- Makes an environment inside another; its number is that of the environments before it. -/
def extend (store : Store) (outer : Option Nat) : Store :=
  { store with environments := store.environments.push { outer := outer } }

/-- The number that the next environment gets. -/
def next (store : Store) : Nat := store.environments.size

/-- Binds a name in an environment, in place of what it was bound to there. -/
def set (store : Store) (environment : Nat) (name : String) (value : Value) : Store :=
  { store with
    environments := store.environments.modify environment fun e =>
      { e with bindings := e.bindings.insert name value } }

/-- The value of a name in an environment or in the environments around it. -/
def get? (store : Store) (environment : Nat) (name : String) : Option Value :=
  match store.environments[environment]? with
  | none => none
  | some e =>
    match e.bindings[name]? with
    | some value => some value
    | none =>
      match e.outer with
      | none => none
      | some outer => if outer < environment then store.get? outer name else none
termination_by environment

/-- Binds names to values, one behind the other. -/
def setAll (store : Store) (environment : Nat) : List (String × Value) → Store
  | [] => store
  | (name, value) :: rest => (store.set environment name value).setAll environment rest

end Store

/-- Why evaluation does not come to a value. -/
inductive Stop where
  | error (e : EvalError)
  /-- More calls are nested than were allowed. -/
  | tooDeep
  deriving DecidableEq

/-- The wording of a stop. -/
def Stop.message : Stop → String
  | error e => e.message
  | tooDeep => "calls nested too deeply"

/-- A step of evaluation.  An error keeps the bindings that were made before it. -/
abbrev Eval := EStateM Stop Store

namespace Eval

/-- Stops with an error. -/
def fail {α : Type} (e : EvalError) : Eval α := throw (.error e)

/-- Makes a value with an identity of its own. -/
def make (value : Stamp → Value) : Eval Value := fun store =>
  .ok (value store.host.stamp) { store with host := store.host.used }

/-- Binds a name. -/
def bind (environment : Nat) (name : String) (value : Value) : Eval Unit := fun store =>
  .ok () (store.set environment name value)

/-- The value of a name: what it is bound to, or else the builtin function of that name. -/
def lookup (environment : Nat) (name : String) : Eval Value := fun store =>
  match store.get? environment name with
  | some value => .ok value store
  | none =>
    match Builtin.ofName? name with
    | some function => .ok (.builtin function) store
    | none => .error (.error (.identifierNotFound name)) store

end Eval

end Scriptlet
