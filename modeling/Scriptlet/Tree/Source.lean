import Scriptlet.Token.Lexer
import Scriptlet.Tree.Parser

/-!
# Reading programs from text

A text is cut into tokens to its end before any of them is looked at further, so an error in the
spelling of a token wins over an error in the arrangement of the tokens before it.
-/

namespace Scriptlet

/-- Why a text is not a program. -/
inductive SourceError where
  | lexical (e : LexError)
  | grammatical (e : ParseError)
  deriving DecidableEq

/-- The wording of an error in a text. -/
def SourceError.message : SourceError → String
  | lexical e => e.message
  | grammatical e => e.message

/-- The program that a text spells. -/
def Program.ofSource (source : String) : Except SourceError Program :=
  match Token.scan source.toList with
  | .error e => .error (.lexical e)
  | .ok tokens =>
    match Program.ofTokens tokens with
    | .ok program _ => .ok program
    | .error e _ => .error (.grammatical e)

end Scriptlet
