import Scriptlet.Proofs.Lexing
import Scriptlet.Proofs.Reading
import Scriptlet.Tree.Text

/-!
# Reading what was printed

The printed form of an expression is a text that can be read again (`Expr.text_reads_back`), if the
expression is printable: it has no conditional and no function literal in it, whose printed forms
are for the reader of a message only, and its names, integers and strings can be spelled.

There are two halves.  `Token.Spelled` is about characters: a text stands for certain tokens before
every other text that ends them.  The printer leaves no blank around parentheses, brackets and the
operators before an operand, so a token often ends only because of the one behind it.
`Expr.ReadUpTo` is about tokens: the reader comes to the point where the whole expression is the
left operand of what may follow, under any bound.  A call is the one expression made of others that
is printed without parentheses around it, and this is why the bound and what follows must be left
open.
-/

namespace Scriptlet

open Reader

variable {e : Expr} {es : List Expr} {pairs : List (Expr × Expr)} {t : Token} {ts us : List Token}

/-! ## Printed expressions -/

mutual

/-- The tokens that stand in the printed form of an expression.  Conditionals and function literals
are left out. -/
def Expr.printed : Expr → List Token
  | .identifier name => [.identifier name]
  | .integer value => [.integer value]
  | .boolean value => [if value then .trueWord else .falseWord]
  | .string contents => [.string contents]
  | .array elements =>
    .leftBracket :: (Token.separated (Expr.printedAll elements) ++ [.rightBracket])
  | .hash pairs => .leftBrace :: (Token.separated (Expr.printedPairs pairs) ++ [.rightBrace])
  | .unary operator operand =>
    .leftParen :: (operator.token :: operand.printed ++ [.rightParen])
  | .binary left operator right =>
    .leftParen :: (left.printed ++ operator.token :: right.printed ++ [.rightParen])
  | .conditional .. | .function .. => []
  | .call callee arguments =>
    callee.printed ++ .leftParen :: (Token.separated (Expr.printedAll arguments) ++ [.rightParen])
  | .index collection key =>
    .leftParen :: (collection.printed ++ .leftBracket :: (key.printed ++ [.rightBracket]) ++
      [.rightParen])

/-- The tokens of each of the expressions. -/
def Expr.printedAll : List Expr → List (List Token)
  | [] => []
  | e :: rest => e.printed :: Expr.printedAll rest

/-- The tokens of each of the hash entries. -/
def Expr.printedPairs : List (Expr × Expr) → List (List Token)
  | [] => []
  | (key, value) :: rest => (key.printed ++ .colon :: value.printed) :: Expr.printedPairs rest

end

theorem Expr.printedAll_eq (es : List Expr) : Expr.printedAll es = es.map Expr.printed := by
  induction es with
  | nil => rfl
  | cons e rest ih => rw [Expr.printedAll, ih, List.map_cons]

theorem Expr.printedPairs_eq (pairs : List (Expr × Expr)) :
    Expr.printedPairs pairs = pairs.map (Expr.entrySpelled Expr.printed) := by
  induction pairs with
  | nil => rfl
  | cons pair rest ih => rw [Expr.printedPairs, ih, List.map_cons, Expr.entrySpelled]

mutual

/-- Whether the printed form of an expression can be read again. -/
def Expr.isPrintable : Expr → Bool
  | .identifier name => (Token.identifier name).isLexical
  | .integer value => (Token.integer value).isLexical
  | .boolean _ => true
  | .string contents => (Token.string contents).isLexical
  | .array elements => Expr.arePrintable elements
  | .hash pairs => Expr.pairsArePrintable pairs
  | .unary operator operand => operator.isUnary && operand.isPrintable
  | .binary left operator right => !operator.isUnary && left.isPrintable && right.isPrintable
  | .conditional .. | .function .. => false
  | .call callee arguments => callee.isPrintable && Expr.arePrintable arguments
  | .index collection key => collection.isPrintable && key.isPrintable

/-- Whether the printed forms of expressions can be read again. -/
def Expr.arePrintable : List Expr → Bool
  | [] => true
  | e :: rest => e.isPrintable && Expr.arePrintable rest

/-- Whether the printed forms of hash entries can be read again. -/
def Expr.pairsArePrintable : List (Expr × Expr) → Bool
  | [] => true
  | (key, value) :: rest => key.isPrintable && value.isPrintable && Expr.pairsArePrintable rest

end

/-! ## Characters -/

theorem Operator.text_token (operator : Operator) : operator.token.text = operator.text := by
  cases operator <;> rfl

theorem Operator.isLexical_token (operator : Operator) : operator.token.isLexical = true := by
  cases operator <;> rfl

namespace Token

variable {cs : List Char} {s s' : String} {ts' : List Token}

/-- Before every text that ends them, the text stands for the tokens. -/
def Spelled (s : String) (ts : List Token) : Prop :=
  ∀ cs us, Spells cs us → Delimits cs → Spells (s.toList ++ cs) (ts ++ us)

theorem spelled_text (h : t.isLexical = true) : Spelled t.text [t] :=
  fun _ _ hcs hends => .cons h (hends t) hcs

theorem Spelled.space (h : Spelled s ts) : Spelled (" " ++ s) ts := by
  intro cs us hcs hends
  rw [String.toList_append, List.append_assoc]
  exact (h cs us hcs hends).space

/-- Every token before the text ends where it starts, whatever is behind it. -/
def EndsTokens (s : String) : Prop := ∀ cs, Delimits (s.toList ++ cs)

theorem EndsTokens.append (h : EndsTokens s) (s' : String) : EndsTokens (s ++ s') := by
  intro cs
  rw [String.toList_append, List.append_assoc]
  exact h _

theorem endsTokens_space : EndsTokens " " := delimits_cons (by decide) (by decide)

/-- Two texts of which the second ends the tokens of the first. -/
theorem Spelled.append (h : Spelled s ts) (h' : Spelled s' ts') (hends' : EndsTokens s') :
    Spelled (s ++ s') (ts ++ ts') := by
  intro cs us hcs hends
  rw [String.toList_append, List.append_assoc, List.append_assoc]
  exact h _ _ (h' cs us hcs hends) (hends' cs)

/-- A text with a token before it that nothing goes on with. -/
theorem Spelled.sign (ht : t.isLexical = true) (hsign : ∀ c, t.goesOn c = false)
    (h : Spelled s ts) : Spelled (t.text ++ s) (t :: ts) := by
  intro cs us hcs hends
  rw [String.toList_append, List.append_assoc]
  exact .cons ht (fun c _ => hsign c) (h cs us hcs hends)

/-- A sign with a space behind it. -/
theorem Spelled.sign_space (ht : t.isLexical = true) (hsign : ∀ c, t.goesOn c = false)
    (h : Spelled s ts) : Spelled (t.text ++ " " ++ s) (t :: ts) := by
  rw [String.append_assoc]
  exact .sign ht hsign h.space

/-- The tokens that stand around others. -/
def isBracket : Token → Bool
  | leftParen | rightParen | leftBracket | rightBracket | leftBrace | rightBrace => true
  | _ => false

theorem endsTokens_bracket (h : t.isBracket = true) : EndsTokens t.text := by
  cases t with
  | leftParen | rightParen | leftBracket | rightBracket | leftBrace | rightBrace =>
    exact delimits_cons (by decide) (by decide)
  | _ => cases h

theorem goesOn_bracket (h : t.isBracket = true) (c : Char) : t.goesOn c = false := by
  cases t <;> first | rfl | cases h

theorem isLexical_bracket (h : t.isBracket = true) : t.isLexical = true := by
  cases t <;> first | rfl | cases h

/-- A text between brackets. -/
theorem Spelled.between (h : Spelled s ts) (opening closing : Token)
    (hopening : opening.isBracket = true) (hclosing : closing.isBracket = true) :
    Spelled (opening.text ++ s ++ closing.text) (opening :: (ts ++ [closing])) := by
  rw [String.append_assoc]
  have hclose : Spelled closing.text [closing] := spelled_text (isLexical_bracket hclosing)
  exact .sign (isLexical_bracket hopening) (goesOn_bracket hopening)
    (h.append hclose (endsTokens_bracket hclosing))

/-- Texts with commas between them. -/
theorem spelled_intercalate {α : Type} {text : α → String} {spell : α → List Token} {as : List α}
    (h : ∀ a ∈ as, Spelled (text a) (spell a)) :
    Spelled (String.intercalate ", " (as.map text)) (separated (as.map spell)) := by
  induction as with
  | nil => exact fun _ _ hcs _ => hcs
  | cons a as ih =>
    have ha := h a (.head _)
    cases as with
    | nil =>
      rw [List.map_singleton, List.map_singleton, separated_singleton, String.intercalate_singleton]
      exact ha
    | cons next as =>
      have hmore := ih fun a' ha' => h a' (.tail _ ha')
      have hcomma : Spelled (", " ++ String.intercalate ", " ((next :: as).map text))
          (comma :: separated ((next :: as).map spell)) :=
        Spelled.sign_space (t := comma) rfl (fun _ => rfl) hmore
      have hends : EndsTokens ", " := delimits_cons (by decide) (by decide)
      have hfirst := ha.append hcomma (hends.append _)
      rw [List.map_cons, List.map_cons, List.map_cons, List.map_cons, String.intercalate_cons_cons,
        separated_cons_cons, String.append_assoc]
      exact hfirst

/-- The text of an operand does not start with `=`, so it does not go on with an operator before
it. -/
theorem Spells.apart_operator (h : Spells cs ts) (hstarts : Starts ts) {operator : Operator}
    (hunary : operator.isUnary = true) : operator.token.Apart cs := by
  have hequal : ∀ c, cs.head? = some c → (c == '=') = false := by
    intro c hc
    obtain ⟨t, ts, rfl, ht⟩ := hstarts
    obtain ⟨rest, hnext⟩ := h.next
    refine beq_eq_false_iff_ne.2 ?_
    rintro rfl
    obtain ⟨rest', rfl⟩ := List.head?_eq_some_iff.1 hc
    have hassign : Token.next ('=' :: rest') = nextOrEqual assign equal rest' := rfl
    rw [hassign] at hnext
    unfold nextOrEqual at hnext
    split at hnext
    · cases hnext
      cases ht
    · cases hnext
      cases ht
  cases operator with
  | not => exact hequal
  | negate => exact fun _ _ => rfl
  | _ => cases hunary

/-- An operator directly before its operand. -/
theorem Spelled.operator_append {operator : Operator} (hunary : operator.isUnary = true)
    (h : Spelled s ts) (hstarts : Starts ts) :
    Spelled (operator.text ++ s) (operator.token :: ts) := by
  intro cs us hcs hends
  have hoperand := h cs us hcs hends
  rw [← operator.text_token, String.toList_append, List.append_assoc]
  exact .cons operator.isLexical_token (hoperand.apart_operator (hstarts.append us) hunary) hoperand

/-- An operator with a space behind it. -/
theorem Spelled.operator_space (operator : Operator) (h : Spelled s ts) :
    Spelled (operator.text ++ (" " ++ s)) (operator.token :: ts) := by
  rw [← operator.text_token]
  exact (spelled_text operator.isLexical_token).append h.space (endsTokens_space.append s)

end Token

namespace Expr

open Token

theorem spelled_array (h : ∀ e ∈ es, Spelled e.text e.printed) :
    Spelled (Expr.array es).text (Expr.array es).printed := by
  rw [Expr.text, Expr.textsOnto_eq, Expr.printed, Expr.printedAll_eq]
  exact (spelled_intercalate h).between leftBracket rightBracket rfl rfl

theorem spelled_entry {pair : Expr × Expr}
    (h : Spelled pair.1.text pair.1.printed ∧ Spelled pair.2.text pair.2.printed) :
    Spelled (pair.1.text ++ ": " ++ pair.2.text) (Expr.entrySpelled Expr.printed pair) := by
  rw [String.append_assoc]
  have hvalue : Spelled (": " ++ pair.2.text) (colon :: pair.2.printed) :=
    Spelled.sign_space (t := colon) rfl (fun _ => rfl) h.2
  have hends : EndsTokens ": " := delimits_cons (by decide) (by decide)
  exact h.1.append hvalue (hends.append _)

theorem spelled_hash
    (h : ∀ p ∈ pairs, Spelled p.1.text p.1.printed ∧ Spelled p.2.text p.2.printed) :
    Spelled (Expr.hash pairs).text (Expr.hash pairs).printed := by
  rw [Expr.text, Expr.entryTextsOnto_eq, Expr.printed, Expr.printedPairs_eq]
  have hspelled := spelled_intercalate fun p hp => spelled_entry (h p hp)
  exact hspelled.between leftBrace rightBrace rfl rfl

theorem spelled_unary {operator : Operator} (hunary : operator.isUnary = true)
    (h : Spelled e.text e.printed) (hstarts : Starts e.printed) :
    Spelled (Expr.unary operator e).text (Expr.unary operator e).printed := by
  have htext : (Expr.unary operator e).text = "(" ++ (operator.text ++ e.text) ++ ")" := by
    simp only [Expr.text, String.append_assoc]
  rw [htext]
  exact (h.operator_append hunary hstarts).between leftParen rightParen rfl rfl

theorem spelled_binary {left right : Expr} {operator : Operator}
    (hleft : Spelled left.text left.printed) (hright : Spelled right.text right.printed) :
    Spelled (Expr.binary left operator right).text (Expr.binary left operator right).printed := by
  have htext : (Expr.binary left operator right).text =
      "(" ++ (left.text ++ (" " ++ (operator.text ++ (" " ++ right.text)))) ++ ")" := by
    simp only [Expr.text, String.append_assoc]
  have hinside := hleft.append (hright.operator_space operator).space (endsTokens_space.append _)
  rw [htext]
  exact hinside.between leftParen rightParen rfl rfl

theorem spelled_call {callee : Expr} (hcallee : Spelled callee.text callee.printed)
    (h : ∀ e ∈ es, Spelled e.text e.printed) :
    Spelled (Expr.call callee es).text (Expr.call callee es).printed := by
  have harguments := (spelled_intercalate h).between leftParen rightParen rfl rfl
  have htext : (Expr.call callee es).text =
      callee.text ++ ("(" ++ String.intercalate ", " (es.map Expr.text) ++ ")") := by
    simp only [Expr.text, Expr.textsOnto_eq, List.reverse_nil, List.nil_append, String.append_assoc]
  have hends : EndsTokens "(" := endsTokens_bracket (t := leftParen) rfl
  rw [htext, Expr.printed, Expr.printedAll_eq]
  exact hcallee.append harguments ((hends.append _).append _)

theorem spelled_index {collection key : Expr}
    (hcollection : Spelled collection.text collection.printed)
    (hkey : Spelled key.text key.printed) :
    Spelled (Expr.index collection key).text (Expr.index collection key).printed := by
  have htext : (Expr.index collection key).text =
      "(" ++ (collection.text ++ ("[" ++ key.text ++ "]")) ++ ")" := by
    simp only [Expr.text, String.append_assoc]
    rfl
  have hends : EndsTokens "[" := endsTokens_bracket (t := leftBracket) rfl
  have hinside := hcollection.append (hkey.between leftBracket rightBracket rfl rfl)
    ((hends.append _).append _)
  rw [htext]
  exact hinside.between leftParen rightParen rfl rfl

/-! ## Tokens -/

/-- Under any bound up to that of an operator before its operand, and with any tokens behind them,
reading the tokens comes to the point at which the expression is the left operand of what may
follow. -/
structure ReadUpTo (e : Expr) (ts : List Token) : Prop where
  starts : Token.Starts ts
  expression : ∀ {fuel bound} rest, 4 * ts.length ≤ fuel → bound.rank ≤ Precedence.unary.rank →
    ∃ left, fuel ≤ left + 1 + ts.length ∧
      Reader.expression fuel bound (ts ++ rest) = operators left bound e rest

variable {fuel : Nat} {bound : Precedence} {rest : List Token}

/-- Reading ends before a token that does not bind more tightly than the bound. -/
theorem ReadUpTo.stop (h : e.ReadUpTo ts) (hfuel : 4 * ts.length ≤ fuel)
    (hbound : bound.rank ≤ Precedence.unary.rank)
    (hstop : (Precedence.ofToken (Token.ahead rest)).rank ≤ bound.rank) :
    Reader.expression fuel bound (ts ++ rest) = .ok e rest := by
  have hlength := h.starts.length_pos
  obtain ⟨left, hleft, heq⟩ := h.expression rest hfuel hbound
  rw [heq]
  exact operators_stop (by omega) hstop

theorem ReadUpTo.readFrom (h : e.ReadUpTo ts) : e.ReadFrom ts where
  starts := h.starts
  closed hfuel hcloses := h.stop hfuel (Nat.zero_le _)
    (Nat.le_of_eq (congrArg Precedence.rank hcloses.strength))

/-- An expression that a single operand of the reader is. -/
theorem ReadUpTo.of_operand (ht : t.startsOperand = true)
    (h : ∀ {fuel rest}, 4 * ts.length + 3 ≤ fuel → operand fuel t (ts ++ rest) = .ok e rest) :
    e.ReadUpTo (t :: ts) where
  starts := ⟨t, ts, rfl, ht⟩
  expression {fuel bound} rest hfuel _ := by
    rw [List.length_cons] at hfuel ⊢
    obtain ⟨fuel, rfl⟩ := Nat.exists_eq_add_of_le' (show 1 ≤ fuel by omega)
    exact ⟨fuel, by omega, expression_of_operand (h (by omega))⟩

/-- An expression of a single token. -/
theorem ReadUpTo.of_token (ht : t.startsOperand = true)
    (h : ∀ fuel rest, operand (fuel + 1) t rest = .ok e rest) : e.ReadUpTo [t] := by
  refine .of_operand ht fun {fuel rest} hfuel => ?_
  obtain ⟨fuel, rfl⟩ := Nat.exists_eq_add_of_le' (show 1 ≤ fuel by omega)
  exact h fuel rest

/-- An expression in parentheses, read without a bound and up to the closing one. -/
theorem ReadUpTo.of_paren
    (h : ∀ {fuel rest}, 4 * ts.length + 4 ≤ fuel →
      Reader.expression fuel .lowest (ts ++ .rightParen :: rest) = .ok e (.rightParen :: rest)) :
    e.ReadUpTo (.leftParen :: (ts ++ [.rightParen])) where
  starts := ⟨_, _, rfl, rfl⟩
  expression {fuel bound} rest hfuel _ := by
    simp only [List.length_cons, List.length_append, List.length_nil] at hfuel ⊢
    obtain ⟨fuel, rfl⟩ := Nat.exists_eq_add_of_le' (show 2 ≤ fuel by omega)
    refine ⟨fuel + 1, by omega, ?_⟩
    rw [List.cons_append, List.append_assoc, List.singleton_append]
    exact expression_paren (h (by omega))

theorem readUpTo_array (h : ∀ e ∈ es, e.ReadUpTo e.printed) :
    (Expr.array es).ReadUpTo (Expr.array es).printed := by
  rw [Expr.printed, Expr.printedAll_eq]
  refine .of_operand rfl fun {fuel rest} hfuel => ?_
  obtain ⟨fuel, rfl⟩ := Nat.exists_eq_add_of_le' (show 1 ≤ fuel by omega)
  simp only [List.length_append, List.length_cons] at hfuel
  have hread : elements fuel .rightBracket
      (Token.separated (es.map Expr.printed) ++ .rightBracket :: rest) = .ok es rest :=
    elements_separated rfl (fun e he => (h e he).readFrom) (by omega)
  rw [List.append_assoc]
  exact bind_of_ok hread

theorem readUpTo_hash (h : ∀ p ∈ pairs, p.1.ReadUpTo p.1.printed ∧ p.2.ReadUpTo p.2.printed) :
    (Expr.hash pairs).ReadUpTo (Expr.hash pairs).printed := by
  rw [Expr.printed, Expr.printedPairs_eq]
  refine .of_operand rfl fun {fuel rest} hfuel => ?_
  obtain ⟨fuel, rfl⟩ := Nat.exists_eq_add_of_le' (show 1 ≤ fuel by omega)
  simp only [List.length_append, List.length_cons] at hfuel
  have hread : entriesOnto [] fuel
      (Token.separated (pairs.map (Expr.entrySpelled Expr.printed)) ++ .rightBrace :: rest) =
      .ok pairs rest :=
    entries_separated (fun p hp => ⟨(h p hp).1.readFrom, (h p hp).2.readFrom⟩) (by omega)
  rw [List.append_assoc]
  exact bind_of_ok hread

theorem readUpTo_unary {operator : Operator} (hunary : operator.isUnary = true)
    (h : e.ReadUpTo e.printed) :
    (Expr.unary operator e).ReadUpTo (Expr.unary operator e).printed := by
  rw [Expr.printed]
  refine .of_paren fun {fuel rest} hfuel => ?_
  simp only [List.length_cons] at hfuel
  obtain ⟨fuel, rfl⟩ := Nat.exists_eq_add_of_le' (show 2 ≤ fuel by omega)
  have hread : Reader.expression fuel .unary (e.printed ++ .rightParen :: rest) =
      .ok e (.rightParen :: rest) := h.stop (by omega) (Nat.le_refl _) (Nat.zero_le _)
  have hoperand : operand (fuel + 1) operator.token (e.printed ++ .rightParen :: rest) =
      .ok (.unary operator e) (.rightParen :: rest) := by
    cases operator with
    | not => exact bind_of_ok hread
    | negate => exact bind_of_ok hread
    | _ => cases hunary
  rw [List.cons_append, expression_of_operand hoperand]
  exact operators_stop (Nat.succ_pos _) (Nat.zero_le _)

theorem readUpTo_binary {left right : Expr} {operator : Operator}
    (hbinary : operator.isUnary = false) (hleft : left.ReadUpTo left.printed)
    (hright : right.ReadUpTo right.printed) :
    (Expr.binary left operator right).ReadUpTo (Expr.binary left operator right).printed := by
  rw [Expr.printed]
  refine .of_paren fun {fuel rest} hfuel => ?_
  obtain ⟨hlow, hhigh⟩ := operator.precedence_bounds hbinary
  simp only [List.length_append, List.length_cons] at hfuel
  obtain ⟨left', hfuel', heq⟩ := hleft.expression
    (operator.token :: (right.printed ++ .rightParen :: rest)) (show _ ≤ fuel by omega)
    (show Precedence.lowest.rank ≤ _ from Nat.zero_le _)
  obtain ⟨left', rfl⟩ := Nat.exists_eq_add_of_le' (show 2 ≤ left' by omega)
  have hread : Reader.expression (left' + 1) (.ofToken operator.token)
      (right.printed ++ .rightParen :: rest) = .ok right (.rightParen :: rest) :=
    hright.stop (by omega) (Nat.le_of_lt hhigh) (Nat.zero_le _)
  rw [List.append_assoc, List.cons_append, heq, operators_binary hbinary hlow hread]
  exact operators_stop (Nat.succ_pos _) (Nat.zero_le _)

theorem readUpTo_call {callee : Expr} (hcallee : callee.ReadUpTo callee.printed)
    (h : ∀ e ∈ es, e.ReadUpTo e.printed) :
    (Expr.call callee es).ReadUpTo (Expr.call callee es).printed := by
  rw [Expr.printed, Expr.printedAll_eq]
  refine ⟨hcallee.starts.append _, fun {fuel bound rest} hfuel hbound => ?_⟩
  simp only [List.length_append, List.length_cons] at hfuel ⊢
  obtain ⟨left, hleft, heq⟩ := hcallee.expression
    (.leftParen :: (Token.separated (es.map Expr.printed) ++ .rightParen :: rest))
    (show _ ≤ fuel by omega) hbound
  obtain ⟨left, rfl⟩ := Nat.exists_eq_add_of_le' (show 1 ≤ left by omega)
  have hread : elements left .rightParen
      (Token.separated (es.map Expr.printed) ++ .rightParen :: rest) = .ok es rest :=
    elements_separated rfl (fun e he => (h e he).readFrom) (by omega)
  have hpass : bound < .ofToken .leftParen := Nat.lt_succ_of_le hbound
  refine ⟨left, by omega, ?_⟩
  rw [List.append_assoc, List.cons_append, List.append_assoc, List.singleton_append, heq]
  exact operators_call hpass hread

theorem readUpTo_index {collection key : Expr}
    (hcollection : collection.ReadUpTo collection.printed) (hkey : key.ReadUpTo key.printed) :
    (Expr.index collection key).ReadUpTo (Expr.index collection key).printed := by
  rw [Expr.printed]
  refine .of_paren fun {fuel rest} hfuel => ?_
  simp only [List.length_append, List.length_cons] at hfuel
  obtain ⟨left, hleft, heq⟩ := hcollection.expression
    (.leftBracket :: (key.printed ++ .rightBracket :: .rightParen :: rest))
    (show _ ≤ fuel by omega) (show Precedence.lowest.rank ≤ _ from Nat.zero_le _)
  obtain ⟨left, rfl⟩ := Nat.exists_eq_add_of_le' (show 2 ≤ left by omega)
  have hread : Reader.expression (left + 1) .lowest
      (key.printed ++ .rightBracket :: .rightParen :: rest) =
      .ok key (.rightBracket :: .rightParen :: rest) :=
    hkey.stop (by omega) (Nat.zero_le _) (Nat.zero_le _)
  have hpass : Precedence.lowest < .ofToken .leftBracket := by decide
  rw [List.append_assoc, List.cons_append, List.append_assoc, List.singleton_append, heq,
    operators_index hpass hread]
  exact operators_stop (Nat.succ_pos _) (Nat.zero_le _)

/-! ## All expressions -/

/-- The printed form of an expression stands for certain tokens, and these are read as the
expression. -/
structure PrintsBack (e : Expr) : Prop where
  spelled : Token.Spelled e.text e.printed
  readUpTo : e.ReadUpTo e.printed

/-- An expression that is printed as a single token. -/
theorem PrintsBack.of_token (htext : e.text = t.text) (hprinted : e.printed = [t])
    (ht : t.isLexical = true) (hstart : t.startsOperand = true)
    (h : ∀ fuel rest, operand (fuel + 1) t rest = .ok e rest) : e.PrintsBack where
  spelled := by
    rw [htext, hprinted]
    exact spelled_text ht
  readUpTo := by
    rw [hprinted]
    exact .of_token hstart h

mutual

theorem printsBack : (e : Expr) → e.isPrintable = true → e.PrintsBack
  | .identifier _, h => .of_token rfl rfl h rfl fun _ _ => rfl
  | .integer _, h => .of_token rfl rfl h rfl fun _ _ => rfl
  | .boolean true, _ => .of_token (t := .trueWord) rfl rfl rfl rfl fun _ _ => rfl
  | .boolean false, _ => .of_token (t := .falseWord) rfl rfl rfl rfl fun _ _ => rfl
  | .string _, h => .of_token rfl rfl h rfl fun _ _ => rfl
  | .array elements, h =>
    have helements := Expr.all_printBack elements h
    ⟨spelled_array fun e he => (helements e he).spelled,
      readUpTo_array fun e he => (helements e he).readUpTo⟩
  | .hash pairs, h =>
    have hpairs := Expr.pairs_printBack pairs h
    ⟨spelled_hash fun p hp => ⟨(hpairs p hp).1.spelled, (hpairs p hp).2.spelled⟩,
      readUpTo_hash fun p hp => ⟨(hpairs p hp).1.readUpTo, (hpairs p hp).2.readUpTo⟩⟩
  | .unary operator operand, h => by
    obtain ⟨hunary, h⟩ := Bool.and_eq_true_iff.1 h
    have hoperand := operand.printsBack h
    exact ⟨spelled_unary hunary hoperand.spelled hoperand.readUpTo.starts,
      readUpTo_unary hunary hoperand.readUpTo⟩
  | .binary left operator right, h => by
    obtain ⟨h, hr⟩ := Bool.and_eq_true_iff.1 h
    obtain ⟨hbinary, hl⟩ := Bool.and_eq_true_iff.1 h
    have hleft := left.printsBack hl
    have hright := right.printsBack hr
    exact ⟨spelled_binary hleft.spelled hright.spelled,
      readUpTo_binary (by simpa using hbinary) hleft.readUpTo hright.readUpTo⟩
  | .call callee arguments, h => by
    obtain ⟨hc, ha⟩ := Bool.and_eq_true_iff.1 h
    have hcallee := callee.printsBack hc
    have harguments := Expr.all_printBack arguments ha
    exact ⟨spelled_call hcallee.spelled fun e he => (harguments e he).spelled,
      readUpTo_call hcallee.readUpTo fun e he => (harguments e he).readUpTo⟩
  | .index collection key, h => by
    obtain ⟨hc, hk⟩ := Bool.and_eq_true_iff.1 h
    have hcollection := collection.printsBack hc
    have hkey := key.printsBack hk
    exact ⟨spelled_index hcollection.spelled hkey.spelled,
      readUpTo_index hcollection.readUpTo hkey.readUpTo⟩

theorem all_printBack : (es : List Expr) → Expr.arePrintable es = true → ∀ e ∈ es, e.PrintsBack
  | [], _ => nofun
  | e :: rest, h => by
    obtain ⟨he, hrest⟩ := Bool.and_eq_true_iff.1 h
    exact List.forall_mem_cons.2 ⟨e.printsBack he, Expr.all_printBack rest hrest⟩

theorem pairs_printBack : (pairs : List (Expr × Expr)) → Expr.pairsArePrintable pairs = true →
    ∀ p ∈ pairs, p.1.PrintsBack ∧ p.2.PrintsBack
  | [], _ => nofun
  | (key, value) :: rest, h => by
    obtain ⟨h, hrest⟩ := Bool.and_eq_true_iff.1 h
    obtain ⟨hkey, hvalue⟩ := Bool.and_eq_true_iff.1 h
    exact List.forall_mem_cons.2 ⟨⟨key.printsBack hkey, value.printsBack hvalue⟩,
      Expr.pairs_printBack rest hrest⟩

end

/-- The printed form of an expression is read as the program that consists of this expression, and
no token is left. -/
theorem text_reads_back (h : e.isPrintable = true) :
    Token.scan e.text.toList = .ok e.printed ∧
      Program.ofTokens e.printed = .ok [.eval e] [] := by
  obtain ⟨hspelled, hread⟩ := e.printsBack h
  constructor
  · have hnone := hspelled [] [] (.blank nofun) (fun _ => nofun)
    rw [List.append_nil, List.append_nil] at hnone
    exact hnone.scan
  · have hcloses : Token.Closes [] := ⟨nofun, rfl⟩
    have hfuel : 4 * e.printed.length ≤ 4 * e.printed.length + 6 := Nat.le_add_right _ _
    have hskip : skipSemicolon [] = .ok () [] := rfl
    have hstatement := statement_eval hread.readFrom hfuel hcloses hskip
    obtain ⟨t, ts, htokens, ht⟩ := hread.starts
    have hahead : Token.ahead e.printed ≠ .endOfFile := by
      rw [htokens]
      exact ne_of_startsOperand ht rfl
    rw [List.append_nil] at hstatement
    show programOnto [] (4 * e.printed.length + 6 + 2) e.printed = _
    rw [programOnto_of_ne hahead, bind_of_ok hstatement]
    rfl

/-- A hash literal where a statement starts, operators before operands without blanks between them,
a call of what an index gives, empty lists, and a string over two lines. -/
def knotty : Expr :=
  .hash
    [(.string "\x00 =\n(", .unary .not (.unary .not (.binary (.array []) .equal (.hash [])))),
      (.call (.index (.call (.identifier "f_0") []) (.unary .negate (.integer 9223372036854775807)))
          [.boolean true, .unary .negate (.call (.identifier "fnn") [.integer 0])],
        .binary (.unary .negate (.integer 1)) .subtract (.index (.identifier "a") (.string "")))]

theorem knotty_reads_back :
    knotty.isPrintable = true ∧
      knotty.text = "\x7b\"\x00 =\n(\": (!(!([] == \x7b\x7d))), " ++
        "(f_0()[(-9223372036854775807)])(true, (-fnn(0))): ((-1) - (a[\"\"]))\x7d" ∧
      Token.scan knotty.text.toList = .ok knotty.printed ∧
      Program.ofTokens knotty.printed = .ok [.eval knotty] [] :=
  have hprintable : knotty.isPrintable = true := by decide
  ⟨hprintable, rfl, text_reads_back hprintable⟩

end Expr

end Scriptlet
