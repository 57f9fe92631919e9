import Scriptlet.Text.Decimal

/-!
# Tokens

The words a script is made of.  A token records what was written, not where: names, integer
literals and string literals keep their contents, every other token is its own spelling.

`Token.text` is the spelling of a token.  It is also how a token is named in a message, which is
why the end of the file has a text although nothing in a script is written that way.
-/

namespace Scriptlet

/-- The tokens of a script.  `unknown` holds a character that starts no token. -/
inductive Token where
  | assign
  | asterisk
  | bang
  | colon
  | comma
  | elseWord
  | endOfFile
  | equal
  | falseWord
  | fnWord
  | greaterThan
  | identifier (name : String)
  | ifWord
  | unknown (text : String)
  | integer (value : Int64)
  | leftBrace
  | leftBracket
  | leftParen
  | lessThan
  | letWord
  | minus
  | notEqual
  | plus
  | returnWord
  | rightBrace
  | rightBracket
  | rightParen
  | semicolon
  | slash
  | string (contents : String)
  | trueWord
  deriving DecidableEq, Inhabited

namespace Token

/-- The spelling of a token. -/
def text : Token → String
  | assign => "="
  | asterisk => "*"
  | bang => "!"
  | colon => ":"
  | comma => ","
  | elseWord => "else"
  | endOfFile => "end of file"
  | equal => "=="
  | falseWord => "false"
  | fnWord => "fn"
  | greaterThan => ">"
  | identifier name => name
  | ifWord => "if"
  | unknown text => text
  | integer value => integerText value
  | leftBrace => "\x7b"
  | leftBracket => "["
  | leftParen => "("
  | lessThan => "<"
  | letWord => "let"
  | minus => "-"
  | notEqual => "!="
  | plus => "+"
  | returnWord => "return"
  | rightBrace => "\x7d"
  | rightBracket => "]"
  | rightParen => ")"
  | semicolon => ";"
  | slash => "/"
  | string contents => "\"" ++ contents ++ "\""
  | trueWord => "true"

/-- The keyword a name spells, or the identifier it is when it spells none. -/
def ofWord (word : String) : Token :=
  match word with
  | "fn" => fnWord
  | "let" => letWord
  | "true" => trueWord
  | "false" => falseWord
  | "return" => returnWord
  | "if" => ifWord
  | "else" => elseWord
  | _ => identifier word

end Token

end Scriptlet
