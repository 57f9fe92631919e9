import Scriptlet.Proofs.Writable

/-!
# Spelling programs

`Program.tokens` writes a program down with as few parentheses as the strengths of the operators
allow.  An operand is put in parentheses if it binds less tightly than the operator that it belongs
to, and a right operand also if it binds just as tightly, since operators of one strength are read
from left to right.  Every statement ends with a semicolon.
-/

namespace Scriptlet

/-- The token of an operator. -/
def Operator.token : Operator → Token
  | add => .plus
  | subtract => .minus
  | multiply => .asterisk
  | divide => .slash
  | equal => .equal
  | notEqual => .notEqual
  | lessThan => .lessThan
  | greaterThan => .greaterThan
  | not => .bang
  | negate => .minus

/-- How tightly an expression holds together.  What is not made by an operator holds together most
tightly. -/
def Expr.strength : Expr → Precedence
  | .binary _ operator _ => .ofToken operator.token
  | .unary _ _ => .unary
  | .call _ _ => .call
  | _ => .index

/-- Tokens in parentheses, if they need them. -/
def Token.around (needed : Bool) (tokens : List Token) : List Token :=
  if needed then .leftParen :: (tokens ++ [.rightParen]) else tokens

/-- The tokens of a parameter list behind its first name. -/
def Token.moreNames : List String → List Token
  | [] => []
  | name :: rest => .comma :: .identifier name :: Token.moreNames rest

/-- The tokens of a parameter list. -/
def Token.names : List String → List Token
  | [] => []
  | name :: rest => .identifier name :: Token.moreNames rest

mutual

/-- The tokens of an expression. -/
def Expr.tokens : Expr → List Token
  | .identifier name => [.identifier name]
  | .integer value => [.integer value]
  | .boolean value => [if value then .trueWord else .falseWord]
  | .string contents => [.string contents]
  | .array elements => .leftBracket :: (Expr.listTokens elements ++ [.rightBracket])
  | .hash pairs => .leftBrace :: (Expr.entryTokens pairs ++ [.rightBrace])
  | .unary operator operand =>
    operator.token :: Token.around (operand.strength < .unary) operand.tokens
  | .binary left operator right =>
    Token.around (left.strength < .ofToken operator.token) left.tokens ++
      operator.token :: Token.around (¬ .ofToken operator.token < right.strength) right.tokens
  | .conditional condition consequence alternative =>
    .ifWord :: .leftParen :: (condition.tokens ++ .rightParen :: .leftBrace ::
      (Program.tokens consequence ++ .rightBrace :: Expr.elseTokens alternative))
  | .function _ parameters body =>
    .fnWord :: .leftParen :: (Token.names parameters ++ .rightParen :: .leftBrace ::
      (Program.tokens body ++ [.rightBrace]))
  | .call callee arguments =>
    Token.around (callee.strength < .call) callee.tokens ++
      .leftParen :: (Expr.listTokens arguments ++ [.rightParen])
  | .index collection key =>
    -- a call and an index expression hold together alike
    Token.around (collection.strength < .call) collection.tokens ++
      .leftBracket :: (key.tokens ++ [.rightBracket])

/-- The tokens of the other branch of a conditional. -/
def Expr.elseTokens : Option Program → List Token
  | some alternative => .elseWord :: .leftBrace :: (Program.tokens alternative ++ [.rightBrace])
  | none => []

/-- The tokens of expressions with commas between them. -/
def Expr.listTokens : List Expr → List Token
  | [] => []
  | e :: rest => e.tokens ++ Expr.moreTokens rest

/-- The tokens of expressions with commas before them. -/
def Expr.moreTokens : List Expr → List Token
  | [] => []
  | e :: rest => .comma :: (e.tokens ++ Expr.moreTokens rest)

/-- The tokens of hash entries with commas between them. -/
def Expr.entryTokens : List (Expr × Expr) → List Token
  | [] => []
  | (key, value) :: rest => key.tokens ++ .colon :: (value.tokens ++ Expr.moreEntryTokens rest)

/-- The tokens of hash entries with commas before them. -/
def Expr.moreEntryTokens : List (Expr × Expr) → List Token
  | [] => []
  | (key, value) :: rest =>
    .comma :: (key.tokens ++ .colon :: (value.tokens ++ Expr.moreEntryTokens rest))

/-- The tokens of a statement. -/
def Stmt.tokens : Stmt → List Token
  | .bind name value => .letWord :: .identifier name :: .assign :: (value.tokens ++ [.semicolon])
  | .ret value => .returnWord :: (value.tokens ++ [.semicolon])
  | .eval value => value.tokens ++ [.semicolon]

/-- The tokens of statements. -/
def Program.tokens : Program → List Token
  | [] => []
  | first :: rest => first.tokens ++ Program.tokens rest

end

example : Expr.tokens (.binary (.binary (.identifier "a") .subtract (.identifier "b")) .subtract
    (.binary (.identifier "c") .subtract (.unary .negate (.identifier "d")))) =
    [.identifier "a", .minus, .identifier "b", .minus, .leftParen, .identifier "c", .minus, .minus,
      .identifier "d", .rightParen] := by decide

end Scriptlet
