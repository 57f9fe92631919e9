import Scriptlet.Token
import Scriptlet.Tree

/-!
# How tightly operators bind

Every token that can follow a complete operand has a precedence; a token that cannot has the lowest.
A reader of expressions goes on as long as the token ahead binds more tightly than the operator it
is reading an operand for.
-/

namespace Scriptlet

/-- The binding strengths, weakest first. -/
inductive Precedence where
  | lowest
  | equality
  | comparison
  | sum
  | product
  | unary
  | call
  | index
  deriving DecidableEq

namespace Precedence

/-- The position of a precedence, counted from the weakest. -/
def rank : Precedence → Nat
  | lowest => 0
  | equality => 1
  | comparison => 2
  | sum => 3
  | product => 4
  | unary => 5
  | call => 6
  | index => 7

instance : LT Precedence := ⟨fun p q => p.rank < q.rank⟩

instance (p q : Precedence) : Decidable (p < q) := inferInstanceAs (Decidable (p.rank < q.rank))

/-- The strength with which a token binds to the operand before it. -/
def ofToken : Token → Precedence
  | .equal => equality
  | .notEqual => equality
  | .lessThan => comparison
  | .greaterThan => comparison
  | .plus => sum
  | .minus => sum
  | .slash => product
  | .asterisk => product
  | .leftParen => call
  | .leftBracket => index
  | _ => lowest

end Precedence

/-- The operator that a token denotes between two operands. -/
def Operator.ofToken? : Token → Option Operator
  | .plus => some add
  | .minus => some subtract
  | .asterisk => some multiply
  | .slash => some divide
  | .equal => some equal
  | .notEqual => some notEqual
  | .lessThan => some lessThan
  | .greaterThan => some greaterThan
  | _ => none

end Scriptlet
