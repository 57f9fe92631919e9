import Scriptlet.Text.Decimal
import Scriptlet.Tree

/-!
# The text of program trees

One printed form per tree.  Unary, binary and index expressions are wrapped in parentheses, so the
printed form shows how a script was grouped; calls are not, since their own parentheses do.

The texts of a list are collected front to back into a reversed accumulator, so that a list of any
length is printed in bounded depth; `Expr.textsOnto_eq` and its companions say that this is `map`.
-/

namespace Scriptlet

/-- The text of a block: its statements between braces. -/
def blockText (statements : List String) : String :=
  "\x7b " ++ String.intercalate "; " statements ++ " \x7d"

/-- The name part of a function literal, which follows the word `fn`. -/
def functionNameText : Option String → String
  | none => ""
  | some name => "<" ++ name ++ ">"

mutual

/-- The printed form of an expression. -/
def Expr.text : Expr → String
  | .identifier name => name
  | .integer value => integerText value
  | .boolean value => if value then "true" else "false"
  | .string contents => "\"" ++ contents ++ "\""
  | .array elements => "[" ++ String.intercalate ", " (Expr.textsOnto [] elements) ++ "]"
  | .hash entries => "\x7b" ++ String.intercalate ", " (Expr.entryTextsOnto [] entries) ++ "\x7d"
  | .unary operator operand => "(" ++ operator.text ++ operand.text ++ ")"
  | .binary left operator right =>
    "(" ++ left.text ++ " " ++ operator.text ++ " " ++ right.text ++ ")"
  | .conditional condition consequence none =>
    "if " ++ condition.text ++ " " ++ blockText (Stmt.textsOnto [] consequence)
  | .conditional condition consequence (some alternative) =>
    "if " ++ condition.text ++ " " ++ blockText (Stmt.textsOnto [] consequence) ++
      " else " ++ blockText (Stmt.textsOnto [] alternative)
  | .function name parameters body =>
    "fn" ++ functionNameText name ++ "(" ++ String.intercalate ", " parameters ++ ") " ++
      blockText (Stmt.textsOnto [] body)
  | .call callee arguments =>
    callee.text ++ "(" ++ String.intercalate ", " (Expr.textsOnto [] arguments) ++ ")"
  | .index collection key => "(" ++ collection.text ++ "[" ++ key.text ++ "])"

/-- The printed forms of expressions, behind those in `acc`, which is reversed. -/
def Expr.textsOnto (acc : List String) : List Expr → List String
  | [] => acc.reverse
  | e :: rest => Expr.textsOnto (e.text :: acc) rest

/-- The printed forms of hash entries, behind those in `acc`, which is reversed. -/
def Expr.entryTextsOnto (acc : List String) : List (Expr × Expr) → List String
  | [] => acc.reverse
  | (key, value) :: rest => Expr.entryTextsOnto ((key.text ++ ": " ++ value.text) :: acc) rest

/-- The printed form of a statement. -/
def Stmt.text : Stmt → String
  | .bind name value => "let " ++ name ++ " = " ++ value.text ++ ";"
  | .ret value => "return " ++ value.text ++ ";"
  | .eval value => value.text

/-- The printed forms of statements, behind those in `acc`, which is reversed. -/
def Stmt.textsOnto (acc : List String) : List Stmt → List String
  | [] => acc.reverse
  | s :: rest => Stmt.textsOnto (s.text :: acc) rest

end

theorem Expr.textsOnto_eq (acc : List String) (es : List Expr) :
    Expr.textsOnto acc es = acc.reverse ++ es.map Expr.text := by
  induction es generalizing acc with
  | nil => simp [Expr.textsOnto]
  | cons e rest ih => simp [Expr.textsOnto, ih]

theorem Expr.entryTextsOnto_eq (acc : List String) (entries : List (Expr × Expr)) :
    Expr.entryTextsOnto acc entries =
      acc.reverse ++ entries.map fun entry => entry.1.text ++ ": " ++ entry.2.text := by
  induction entries generalizing acc with
  | nil => simp [Expr.entryTextsOnto]
  | cons entry rest ih => simp [Expr.entryTextsOnto, ih]

theorem Stmt.textsOnto_eq (acc : List String) (statements : List Stmt) :
    Stmt.textsOnto acc statements = acc.reverse ++ statements.map Stmt.text := by
  induction statements generalizing acc with
  | nil => simp [Stmt.textsOnto]
  | cons s rest ih => simp [Stmt.textsOnto, ih]

/-- The printed form of a function literal. -/
def FunctionLiteral.text (literal : FunctionLiteral) : String :=
  (Expr.function literal.name literal.parameters literal.body).text

end Scriptlet
