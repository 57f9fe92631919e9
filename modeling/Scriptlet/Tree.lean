/-!
# Program trees

Expressions and statements of a script.  A program and a block are both lists of statements;
everything else is an expression, also a conditional and a function literal.

The trees are more permissive than what can be written: any operator may stand in a unary or a
binary node, an integer literal may be negative, and a function literal may carry any name.  The
engines say what such a tree does.
-/

namespace Scriptlet

/-- The operators of expressions.  `not` and `negate` are the ones that are written before a single
operand. -/
inductive Operator where
  | add
  | subtract
  | multiply
  | divide
  | equal
  | notEqual
  | lessThan
  | greaterThan
  | not
  | negate
  deriving DecidableEq, Inhabited

/-- The spelling of an operator. -/
def Operator.text : Operator → String
  | add => "+"
  | subtract => "-"
  | multiply => "*"
  | divide => "/"
  | equal => "=="
  | notEqual => "!="
  | lessThan => "<"
  | greaterThan => ">"
  | not => "!"
  | negate => "-"

mutual

/-- Expressions. -/
inductive Expr where
  | identifier (name : String)
  | integer (value : Int64)
  | boolean (value : Bool)
  | string (contents : String)
  | array (elements : List Expr)
  | hash (entries : List (Expr × Expr))
  | unary (operator : Operator) (operand : Expr)
  | binary (left : Expr) (operator : Operator) (right : Expr)
  | conditional (condition : Expr) (consequence : List Stmt) (alternative : Option (List Stmt))
  | function (name : Option String) (parameters : List String) (body : List Stmt)
  | call (callee : Expr) (arguments : List Expr)
  | index (collection : Expr) (key : Expr)

/-- Statements. -/
inductive Stmt where
  | bind (name : String) (value : Expr)
  | ret (value : Expr)
  | eval (value : Expr)

end

instance : Inhabited Expr := ⟨.boolean false⟩

instance : Inhabited Stmt := ⟨.eval default⟩

/-- A program is a list of statements. -/
abbrev Program := List Stmt

/-- A function literal taken out of its expression. -/
structure FunctionLiteral where
  name : Option String
  parameters : List String
  body : List Stmt

namespace Expr

/-- Gives a function literal a name; no other expression has a place for one. -/
def named (name : String) : Expr → Expr
  | function _ parameters body => function (some name) parameters body
  | e => e

end Expr

/-- Whether the last statement of a program is an expression, so that the program has a result worth
showing. -/
def Program.endsInExpression (program : Program) : Bool :=
  match program.getLast? with
  | some (.eval _) => true
  | _ => false

end Scriptlet
