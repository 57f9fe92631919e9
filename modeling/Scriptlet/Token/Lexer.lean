import Scriptlet.Token

/-!
# Reading tokens from text

`Token.next` takes one token off the front of a text and says what is left, also when the text
there is no token: a reader can go on behind an error.  `Token.scan` takes tokens until the end of
the file.

## The end of the file

The character `U+0000` outside a string literal reads as the end of the file, exactly as the real
end does.  It is consumed like any other character, so a caller of `Token.next` can read on behind
it, while `Token.scan` stops there.  Inside a string literal it is an ordinary character.

## Progress

`next_suffix`: what is left is always the end of the text.  `length_next_lt`: whatever `Token.next`
returns other than the end of the file has cost at least one character.  This is the measure by
which `Token.scan` ends.
-/

namespace Scriptlet

/-- Why a text is not a sequence of tokens. -/
inductive LexError where
  /-- A string literal whose closing quote is missing; `contents` is all that follows the opening
  quote. -/
  | unterminatedString (contents : String)
  /-- An integer literal above the largest 64-bit integer. -/
  | integerTooLarge
  deriving DecidableEq

/-- The wording of a lexical error. -/
def LexError.message : LexError → String
  | unterminatedString contents => "Unterminated string literal: \"" ++ contents
  | integerTooLarge => "number too large to fit in target type"

namespace Token

/-- The four characters that separate tokens. -/
def isBlank (c : Char) : Bool :=
  c == ' ' || c == '\t' || c == '\n' || c == '\r'

/-- Names start with an ASCII letter or an underscore. -/
def isNameStart (c : Char) : Bool :=
  c.isAlpha || c == '_'

/-- Names go on with letters, underscores and ASCII digits. -/
def isNamePart (c : Char) : Bool :=
  isNameStart c || c.isDigit

/-- The number that a list of decimal digits denotes. -/
def decimal (digits : List Char) : Nat :=
  digits.foldl (fun n d => 10 * n + (d.toNat - '0'.toNat)) 0

/-- The first number above the 64-bit integers. -/
def integerBound : Nat := 0x8000000000000000

/-- The token of an integer literal, if its value is a 64-bit integer. -/
def ofDigits (digits : List Char) : Except LexError Token :=
  let value := decimal digits
  if value < integerBound then .ok (integer (Int64.ofNat value)) else .error .integerTooLarge

/-- Reads a string literal behind its opening quote. -/
def nextString (cs : List Char) : Except LexError Token × List Char :=
  let contents := String.ofList (cs.takeWhile (· != '"'))
  match cs.dropWhile (· != '"') with
  | _ :: rest => (.ok (string contents), rest)
  | [] => (.error (.unterminatedString contents), [])

/-- Reads a token that has a longer form when `=` follows. -/
def nextOrEqual (short long : Token) : List Char → Except LexError Token × List Char
  | '=' :: rest => (.ok long, rest)
  | rest => (.ok short, rest)

/-- Reads the token that starts with `c`, given the text behind `c`. -/
def nextFrom (c : Char) (rest : List Char) : Except LexError Token × List Char :=
  match c with
  | '=' => nextOrEqual assign equal rest
  | ';' => (.ok semicolon, rest)
  | ':' => (.ok colon, rest)
  | '(' => (.ok leftParen, rest)
  | ')' => (.ok rightParen, rest)
  | ',' => (.ok comma, rest)
  | '+' => (.ok plus, rest)
  | '\x7b' => (.ok leftBrace, rest)
  | '\x7d' => (.ok rightBrace, rest)
  | '[' => (.ok leftBracket, rest)
  | ']' => (.ok rightBracket, rest)
  | '!' => nextOrEqual bang notEqual rest
  | '<' => (.ok lessThan, rest)
  | '>' => (.ok greaterThan, rest)
  | '-' => (.ok minus, rest)
  | '*' => (.ok asterisk, rest)
  | '/' => (.ok slash, rest)
  | '"' => nextString rest
  | '\x00' => (.ok endOfFile, rest)
  | c =>
    if isNameStart c then
      (.ok (ofWord (String.ofList (c :: rest.takeWhile isNamePart))), rest.dropWhile isNamePart)
    else if c.isDigit then
      (ofDigits (c :: rest.takeWhile Char.isDigit), rest.dropWhile Char.isDigit)
    else
      (.ok (unknown (String.singleton c)), rest)

/-- Takes the next token off the front of a text.  The second component is the text behind it, or
behind the characters that are no token. -/
def next (cs : List Char) : Except LexError Token × List Char :=
  match cs.dropWhile isBlank with
  | [] => (.ok endOfFile, [])
  | c :: rest => nextFrom c rest

theorem nextString_suffix (cs : List Char) : (nextString cs).2 <:+ cs := by
  have h := List.dropWhile_suffix (l := cs) (· != '"')
  unfold nextString
  split
  · next heq => rw [heq] at h; exact (List.suffix_cons _ _).trans h
  · exact List.nil_suffix

theorem nextOrEqual_suffix (short long : Token) (cs : List Char) :
    (nextOrEqual short long cs).2 <:+ cs := by
  unfold nextOrEqual
  split
  · exact List.suffix_cons _ _
  · exact List.suffix_refl _

/-- Reading a token never gives characters back. -/
theorem nextFrom_suffix (c : Char) (rest : List Char) : (nextFrom c rest).2 <:+ rest := by
  unfold nextFrom
  split
  case h_1 => exact nextOrEqual_suffix _ _ _
  case h_12 => exact nextOrEqual_suffix _ _ _
  case h_18 => exact nextString_suffix _
  case h_20 =>
    split
    · exact List.dropWhile_suffix _
    · split
      · exact List.dropWhile_suffix _
      · exact List.suffix_refl _
  all_goals exact List.suffix_refl _

theorem next_suffix (cs : List Char) : (next cs).2 <:+ cs := by
  have h := List.dropWhile_suffix (l := cs) isBlank
  unfold next
  split <;> rename_i heq
  · exact List.nil_suffix
  · rw [heq] at h
    exact (nextFrom_suffix _ _).trans ((List.suffix_cons _ _).trans h)

/-- Every outcome but the end of the file has cost at least one character. -/
theorem length_next_lt {cs : List Char} (h : (next cs).1 ≠ .ok endOfFile) :
    (next cs).2.length < cs.length := by
  have hle := (List.dropWhile_suffix (l := cs) isBlank).length_le
  unfold next at h ⊢
  split at h <;> rename_i heq
  · exact absurd rfl h
  · rw [heq, List.length_cons] at hle
    exact Nat.lt_of_le_of_lt (nextFrom_suffix _ _).length_le hle

/-- Reads the tokens of a text behind those already read, which `acc` holds in reverse. -/
def scanOnto (acc : List Token) (cs : List Char) : Except LexError (List Token) :=
  match h : next cs with
  | (.error e, _) => .error e
  | (.ok t, rest) =>
    if ht : t = endOfFile then .ok acc.reverse
    else
      have : rest.length < cs.length := by
        have := @length_next_lt cs (by simp [h, ht])
        simpa [h] using this
      scanOnto (t :: acc) rest
termination_by cs.length

/-- The tokens of a text up to the end of the file, which is not itself listed. -/
def scan (cs : List Char) : Except LexError (List Token) :=
  scanOnto [] cs

/-- The first `n` outcomes of reading a text token by token, going on behind errors and behind the
end of the file. -/
def outcomes : Nat → List Char → List (Except LexError Token)
  | 0, _ => []
  | n + 1, cs => (next cs).1 :: outcomes n (next cs).2

end Token

end Scriptlet
