import Scriptlet.Builtin.Call
import Scriptlet.Evaluation.Environment
import Scriptlet.Evaluation.Operate

/-!
# Evaluating program trees

The second way to run a script, straight from its tree.  Evaluation follows the tree, so it ends
with it; the one thing it does not contain is the body of a function that is called.  The functions
that follow the tree are therefore given a `Caller`, which says what a call does, and `Eval.apply`
ties the knot with a bound on how deep calls may be nested.

A `return` makes a value that is marked as returned.  Blocks stop at such a value and hand it on;
the call of a function, and the program, take the mark off.  No other expression looks at the mark.
-/

namespace Scriptlet

namespace Eval

/-- What a call of a value with arguments does. -/
abbrev Caller := Value → List Value → Eval Value

/-- Continues with the outcome of an operator. -/
def lift {α : Type} : Except EvalError α → Eval α
  | .ok a => pure a
  | .error e => fail e

/-- Takes the mark of a returned value off. -/
def unmark : Value → Value
  | .returned value => value
  | value => value

/-- The value of an operator between two operands. -/
def binary (operator : Operator) (left right : Value) : Eval Value := do
  let stamp := (← get).host.stamp
  let value ← lift (operator.applyBinary left right stamp)
  modify fun store => { store with host := store.host.used }
  return value

/-- The key that a value is, as the key of a hash entry. -/
def key (value : Value) : Eval Key :=
  match value.key? with
  | some k => pure k
  | none => fail (.unusableHashKey value.kind)

mutual

/-- Evaluates an expression in an environment. -/
def expr (call : Caller) (env : Nat) : Expr → Eval Value
  | .identifier name => lookup env name
  | .integer value => return .integer value
  | .boolean value => return .boolean value
  | .string contents => make fun stamp => .string stamp contents
  | .array elements => do
    let values ← exprsOnto call env [] elements
    make fun stamp => .array stamp values
  | .hash pairs => do
    let entries ← entriesOnto call env [] pairs
    make fun stamp => .hash stamp (Value.entriesOf entries)
  | .unary operator operand => do
    let value ← expr call env operand
    lift (operator.applyUnary value)
  | .binary left operator right => do
    let a ← expr call env left
    let b ← expr call env right
    binary operator a b
  | .conditional condition consequence alternative => do
    let value ← expr call env condition
    if value.isTruthy then
      block call env .null consequence
    else
      match alternative with
      | some alternative => block call env .null alternative
      | none => return .null
  | .function name parameters body =>
    make fun stamp => .function stamp ⟨name, parameters, body⟩ env
  | .call callee arguments => do
    let function ← expr call env callee
    let values ← exprsOnto call env [] arguments
    call function values
  | .index collection key => do
    let a ← expr call env collection
    let b ← expr call env key
    lift (a.select b)

/-- Evaluates expressions in order, behind the values in `acc`, which is reversed. -/
def exprsOnto (call : Caller) (env : Nat) (acc : List Value) : List Expr → Eval (List Value)
  | [] => return acc.reverse
  | e :: rest => do
    let value ← expr call env e
    exprsOnto call env (value :: acc) rest

/-- Evaluates the entries of a hash literal in order, behind those in `acc`, which is reversed.  A
key is looked at before its value is evaluated. -/
def entriesOnto (call : Caller) (env : Nat) (acc : List (Key × Value)) :
    List (Expr × Expr) → Eval (List (Key × Value))
  | [] => return acc.reverse
  | (k, v) :: rest => do
    let keyValue ← expr call env k
    let key ← key keyValue
    let value ← expr call env v
    entriesOnto call env ((key, value) :: acc) rest

/-- Evaluates a statement.  A `let` has the value `null`. -/
def stmt (call : Caller) (env : Nat) : Stmt → Eval Value
  | .bind name e => do
    let value ← expr call env e
    bind env name value
    return .null
  | .ret e => do
    let value ← expr call env e
    return .returned value
  | .eval e => expr call env e

/-- Evaluates the statements of a block up to the first returned value.  The value of a block is
that of its last statement, or `result` if it has none. -/
def block (call : Caller) (env : Nat) (result : Value) : List Stmt → Eval Value
  | [] => return result
  | s :: rest => do
    match ← stmt call env s with
    | .returned value => return .returned value
    | value => block call env value rest

end

/-- Calls a value with arguments, with at most `depth` calls nested in each other.  A function body
is evaluated in a new environment inside the one that the function was made in. -/
def apply : (depth : Nat) → Caller
  | 0, _, _ => throw .tooDeep
  | depth + 1, function, arguments =>
    match function with
    | .function _ literal outer => do
      if literal.parameters.length = arguments.length then
        let env := (← get).next
        modify fun store =>
          (store.extend (some outer)).setAll env (literal.parameters.zip arguments)
        let result ← block (apply depth) env .null literal.body
        return unmark result
      else
        fail (.wrongArgumentCount literal.parameters.length arguments.length)
    | .builtin function => fun store =>
      let (answer, host) := function.call arguments store.host
      .ok answer { store with host := host }
    | other => fail (.notAFunction other.kind)

/-- Evaluates a program in an environment. -/
def program (depth : Nat) (env : Nat) (statements : Program) : Eval Value := do
  let result ← block (apply depth) env .null statements
  return unmark result

end Eval

namespace Store

/-- More nested calls than a script makes in practice. -/
def callDepth : Nat := 0x100000000

/-- A store with one environment, which is empty and has none around it. -/
def start : Store := ({} : Store).extend none

/-- Makes a step of evaluation on a store. -/
def perform {α : Type} (store : Store) (step : Eval α) : Except Stop α × Store :=
  match step store with
  | .ok a after => (.ok a, after)
  | .error stop after => (.error stop, after)

/-- Evaluates a program in an environment of a store. -/
def evaluate (store : Store) (env : Nat) (program : Program) : Except Stop Value × Store :=
  store.perform (Eval.program callDepth env program)

/-- Evaluates a statement in an environment of a store.  The value of a `return` keeps its mark. -/
def evaluateStatement (store : Store) (env : Nat) (s : Stmt) : Except Stop Value × Store :=
  store.perform (Eval.stmt (Eval.apply callDepth) env s)

/-- Evaluates an expression in an environment of a store. -/
def evaluateExpression (store : Store) (env : Nat) (e : Expr) : Except Stop Value × Store :=
  store.perform (Eval.expr (Eval.apply callDepth) env e)

end Store

end Scriptlet
