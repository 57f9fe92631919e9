import Scriptlet.Tree.Precedence

/-!
# Reading programs from tokens

A reader takes tokens off the front of a list and gives back a tree, or the reason why there is
none, in both cases together with the tokens it has not read.  Behind the last token a reader sees
the end of the file for ever.

Expressions are read by precedence climbing: `Reader.expression` reads one operand and hands it to
`Reader.operators`, which extends it as long as the token ahead binds more tightly than the bound it
was given.

## The allowance

The readers call each other without a bound that the shape of the tokens would show, so each takes
an allowance that every call lowers by one.  Between two tokens that are consumed at most four calls
are made, so `Reader.allowance` is enough for any list of tokens and running out of it is not an
outcome of `Program.ofTokens`.
-/

namespace Scriptlet

/-- Why tokens are not a program. -/
inductive ParseError where
  /-- One particular token was required. -/
  | expected (wanted found : Token)
  /-- A name was required behind the word `let`. -/
  | expectedName (found : Token)
  /-- A block ran into the end of the file. -/
  | unclosedBlock
  /-- No expression starts with this token. -/
  | noExpression (found : Token)
  /-- This token does not stand between two operands. -/
  | noOperator (found : Token)
  /-- A parameter list holds something other than a name. -/
  | expectedParameter (found : Token)
  /-- A parameter is followed by neither a comma nor the end of its list. -/
  | expectedParameterEnd (found : Token)
  /-- A list element is followed by neither a comma nor the end of its list. -/
  | expectedElementEnd (close found : Token)
  /-- A hash entry is followed by neither a comma nor the end of its literal. -/
  | expectedEntryEnd (found : Token)
  /-- The allowance of the readers is used up. -/
  | outOfAllowance
  deriving DecidableEq

/-- The wording of a parse error. -/
def ParseError.message : ParseError → String
  | expected wanted found =>
    "Expected '" ++ wanted.text ++ "' token! Found '" ++ found.text ++ "'."
  | expectedName found => "Expected 'Identifier' token! Found '" ++ found.text ++ "'."
  | unclosedBlock => "Expected '\x7d' token! Found end of file."
  | noExpression found => "Token not valid for an expression: '" ++ found.text ++ "'"
  | noOperator found => "Token not valid for an infix expression: '" ++ found.text ++ "'"
  | expectedParameter found => "Expected parameter name! Found '" ++ found.text ++ "'."
  | expectedParameterEnd found =>
    "Expected ',' or ')' in parameter list! Found '" ++ found.text ++ "'."
  | expectedElementEnd close found =>
    "Expected ',' or '" ++ close.text ++ "'! Found '" ++ found.text ++ "'."
  | expectedEntryEnd found =>
    "Expected ',' or '\x7d' in hash literal! Found '" ++ found.text ++ "'."
  | outOfAllowance => "Program nested too deeply."

/-- A reader of tokens.  The state is the list of unread tokens, which an error keeps. -/
abbrev Reader := EStateM ParseError (List Token)

namespace Reader

/-- The token ahead, which is the end of the file behind the last token. -/
def peek : Reader Token := fun tokens => .ok (tokens.headD .endOfFile) tokens

/-- Reads the token ahead. -/
def take : Reader Token := fun tokens => .ok (tokens.headD .endOfFile) tokens.tail

/-- Reads the token ahead, which has to be `wanted`. -/
def expect (wanted : Token) : Reader Unit := do
  let found ← take
  if found = wanted then return else throw (.expected wanted found)

/-- Reads a semicolon if one is ahead. -/
def skipSemicolon : Reader Unit := do
  if (← peek) = .semicolon then
    let _ ← take

/-- Reads the rest of a parameter list, of which `acc` holds the names read so far in reverse.  A
list that goes on starts with a name. -/
def parametersOnto (acc : List String) :
    List Token → EStateM.Result ParseError (List Token) (List String)
  | .identifier name :: .comma :: rest => parametersOnto (name :: acc) rest
  | .identifier name :: .rightParen :: rest => .ok (name :: acc).reverse rest
  | .identifier _ :: found :: rest => .error (.expectedParameterEnd found) rest
  | .identifier _ :: [] => .error (.expectedParameterEnd .endOfFile) []
  | found :: rest => .error (.expectedParameter found) rest
  | [] => .error (.expectedParameter .endOfFile) []

/-- Reads a parameter list behind its opening parenthesis. -/
def parameters : Reader (List String) := do
  if (← peek) = .rightParen then
    let _ ← take
    return []
  else
    parametersOnto []

mutual

/-- Reads a statement and the semicolon behind it, if there is one. -/
def statement : Nat → Reader Stmt
  | 0 => throw .outOfAllowance
  | fuel + 1 => do
    match ← peek with
    | .letWord => do
      let _ ← take
      match ← take with
      | .identifier name => do
        expect .assign
        let value ← expression fuel .lowest
        skipSemicolon
        return .bind name (value.named name)
      | found => throw (.expectedName found)
    | .returnWord => do
      let _ ← take
      let value ← expression fuel .lowest
      skipSemicolon
      return .ret value
    | _ => do
      let value ← expression fuel .lowest
      skipSemicolon
      return .eval value

/-- Reads the rest of a block up to its closing brace, behind the statements in `acc`, which is
reversed. -/
def statementsOnto (acc : List Stmt) : Nat → Reader (List Stmt)
  | 0 => throw .outOfAllowance
  | fuel + 1 => do
    match ← peek with
    | .rightBrace => do
      let _ ← take
      return acc.reverse
    | .endOfFile => throw .unclosedBlock
    | _ => do
      let s ← statement fuel
      statementsOnto (s :: acc) fuel

/-- Reads an expression whose operators all bind more tightly than `bound`. -/
def expression : Nat → Precedence → Reader Expr
  | 0, _ => throw .outOfAllowance
  | fuel + 1, bound => do
    let first ← take
    let left ← operand fuel first
    operators fuel bound left

/-- Reads the operand that starts with the token `first`, which has been read. -/
def operand : Nat → Token → Reader Expr
  | 0, _ => throw .outOfAllowance
  | fuel + 1, first => do
    match first with
    | .identifier name => return .identifier name
    | .integer value => return .integer value
    | .string contents => return .string contents
    | .trueWord => return .boolean true
    | .falseWord => return .boolean false
    | .bang => do
      let e ← expression fuel .unary
      return .unary .not e
    | .minus => do
      let e ← expression fuel .unary
      return .unary .negate e
    | .leftParen => do
      let e ← expression fuel .lowest
      expect .rightParen
      return e
    | .ifWord => conditional fuel
    | .fnWord => do
      expect .leftParen
      let names ← parameters
      expect .leftBrace
      let body ← statementsOnto [] fuel
      return .function none names body
    | .leftBracket => do
      let elements ← elements fuel .rightBracket
      return .array elements
    | .leftBrace => do
      let entries ← entriesOnto [] fuel
      return .hash entries
    | found => throw (.noExpression found)

/-- Extends the expression `left` by the operators ahead that bind more tightly than `bound`. -/
def operators : Nat → Precedence → Expr → Reader Expr
  | 0, _, _ => throw .outOfAllowance
  | fuel + 1, bound, left => do
    let ahead ← peek
    if bound < Precedence.ofToken ahead then
      let _ ← take
      match ahead with
      | .leftParen => do
        let arguments ← elements fuel .rightParen
        operators fuel bound (.call left arguments)
      | .leftBracket => do
        let key ← expression fuel .lowest
        expect .rightBracket
        operators fuel bound (.index left key)
      | token =>
        match Operator.ofToken? token with
        | some operator => do
          let right ← expression fuel (Precedence.ofToken token)
          operators fuel bound (.binary left operator right)
        | none => throw (.noOperator token)
    else
      return left

/-- Reads a conditional behind the word `if`.  An `else if` is a conditional that is the only
statement of the other branch. -/
def conditional : Nat → Reader Expr
  | 0 => throw .outOfAllowance
  | fuel + 1 => do
    expect .leftParen
    let condition ← expression fuel .lowest
    expect .rightParen
    expect .leftBrace
    let consequence ← statementsOnto [] fuel
    if (← peek) = .elseWord then
      let _ ← take
      if (← peek) = .ifWord then
        let _ ← take
        let nested ← conditional fuel
        return .conditional condition consequence (some [.eval nested])
      else
        expect .leftBrace
        let alternative ← statementsOnto [] fuel
        return .conditional condition consequence (some alternative)
    else
      return .conditional condition consequence none

/-- Reads expressions separated by commas up to the token `close`. -/
def elements : Nat → Token → Reader (List Expr)
  | 0, _ => throw .outOfAllowance
  | fuel + 1, close => do
    if (← peek) = close then
      let _ ← take
      return []
    else
      elementsOnto [] fuel close

/-- Reads the rest of a list that goes on, behind the elements in `acc`, which is reversed. -/
def elementsOnto (acc : List Expr) : Nat → Token → Reader (List Expr)
  | 0, _ => throw .outOfAllowance
  | fuel + 1, close => do
    let e ← expression fuel .lowest
    let found ← take
    if found = .comma then
      elementsOnto (e :: acc) fuel close
    else if found = close then
      return (e :: acc).reverse
    else
      throw (.expectedElementEnd close found)

/-- Reads the rest of a hash literal up to its closing brace, behind the entries in `acc`, which is
reversed.  A comma may stand behind the last entry. -/
def entriesOnto (acc : List (Expr × Expr)) : Nat → Reader (List (Expr × Expr))
  | 0 => throw .outOfAllowance
  | fuel + 1 => do
    if (← peek) = .rightBrace then
      let _ ← take
      return acc.reverse
    else
      let key ← expression fuel .lowest
      expect .colon
      let value ← expression fuel .lowest
      match ← peek with
      | .comma => do
        let _ ← take
        entriesOnto ((key, value) :: acc) fuel
      | .rightBrace => entriesOnto ((key, value) :: acc) fuel
      | found => throw (.expectedEntryEnd found)

end

/-- Reads statements up to the end of the file, behind those in `acc`, which is reversed. -/
def programOnto (acc : List Stmt) : Nat → Reader Program
  | 0 => throw .outOfAllowance
  | fuel + 1 => do
    if (← peek) = .endOfFile then
      return acc.reverse
    else
      let s ← statement fuel
      programOnto (s :: acc) fuel

/-- An allowance that no list of so many tokens uses up. -/
def allowance (tokens : List Token) : Nat := 4 * tokens.length + 8

end Reader

/-- Reads a whole program, up to the end of the file.  The state of the result holds the tokens that
were not read. -/
def Program.ofTokens (tokens : List Token) : EStateM.Result ParseError (List Token) Program :=
  Reader.programOnto [] (Reader.allowance tokens) tokens

end Scriptlet
