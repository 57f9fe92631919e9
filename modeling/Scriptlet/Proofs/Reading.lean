import Scriptlet.Proofs.Spelling

/-!
# Reading what was written

Reading the tokens of a program gives the program back and leaves no token
(`Program.reads_exactly_writable`).

`Expr.Reads` is the statement about an expression from which this follows.  It is about an
expression with other tokens behind it and under any bound that lets the expression through, and it
says where the reader stands when it has come to the end of the expression: in `Reader.operators`,
with the whole expression as its left operand.  So the statement about a binary expression is the
one about its left operand, followed by one more operator.

Every token allows for four calls of the readers, which is what `Reader.allowance` grants.
-/

namespace Scriptlet

variable {fuel : Nat} {bound : Precedence} {t : Token} {ts rest : List Token} {e : Expr}
  {name : String}

/-! ## Tokens at the ends of an expression -/

/-- The tokens that an expression starts with. -/
def Token.startsOperand : Token → Bool
  | identifier _ | integer _ | string _ | trueWord | falseWord | bang | minus | leftParen | ifWord
  | fnWord | leftBracket | leftBrace => true
  | _ => false

/-- The tokens start with one that starts an expression. -/
def Token.Starts (tokens : List Token) : Prop :=
  ∃ t ts, tokens = t :: ts ∧ t.startsOperand = true

namespace Token

theorem Starts.append (h : Starts ts) (rest : List Token) : Starts (ts ++ rest) := by
  obtain ⟨t, ts, rfl, ht⟩ := h
  exact ⟨t, ts ++ rest, rfl, ht⟩

theorem Starts.around (h : Starts ts) (needed : Bool) : Starts (around needed ts) := by
  cases needed with
  | false => exact h
  | true => exact ⟨_, _, rfl, rfl⟩

theorem Starts.length_pos (h : Starts ts) : 0 < ts.length := by
  obtain ⟨t, ts, rfl, -⟩ := h
  exact Nat.succ_pos _

end Token

/-- The token ahead, behind the last one for ever the end of the file. -/
def Token.ahead (tokens : List Token) : Token := tokens.headD .endOfFile

/-- A token other than the end of the file is ahead only if there is one. -/
theorem Token.eq_cons_of_ahead (h : Token.ahead ts = t) (ht : t ≠ .endOfFile) :
    ∃ rest, ts = t :: rest := by
  cases ts with
  | nil => exact absurd h.symm ht
  | cons u rest =>
    obtain rfl : u = t := h
    exact ⟨rest, rfl⟩

/-- The tokens behind an expression neither go on with it nor with a conditional at its end. -/
structure Expr.Ends (e : Expr) (rest : List Token) : Prop where
  word : Token.ahead rest ≠ .elseWord
  strength : e.strength.rank ≤ Precedence.unary.rank →
    (Precedence.ofToken (Token.ahead rest)).rank ≤ e.strength.rank

/-- The tokens end every expression before them. -/
structure Token.Closes (rest : List Token) : Prop where
  word : ahead rest ≠ .elseWord
  strength : Precedence.ofToken (ahead rest) = .lowest

theorem Token.closes_cons (hword : t ≠ .elseWord) (hstrength : Precedence.ofToken t = .lowest) :
    Token.Closes (t :: rest) := ⟨hword, hstrength⟩

theorem Token.Closes.ends (h : Token.Closes rest) (e : Expr) : e.Ends rest := by
  refine ⟨h.word, fun _ => ?_⟩
  rw [h.strength]
  exact Nat.zero_le _

/-- An expression without the name that a function literal may have. -/
def Expr.anonymous : Expr → Expr
  | function _ parameters body => function none parameters body
  | e => e

theorem Expr.anonymous_eq (h : e.isWritable none = true) : e.anonymous = e := by
  cases e with
  | function name parameters body =>
    have hname : name = none := eq_of_beq (Bool.and_eq_true_iff.1 h).1
    rw [hname]
    rfl
  | _ => rfl

/-- A `let` gives a function literal its name back. -/
theorem Expr.named_anonymous (h : e.isWritable (some name) = true) :
    e.anonymous.named name = e := by
  cases e with
  | function name' parameters body =>
    have hname : name' = some name := eq_of_beq (Bool.and_eq_true_iff.1 h).1
    rw [hname]
    rfl
  | _ => rfl

/-- The token between two operands stands for its operator. -/
theorem Operator.ofToken?_token {operator : Operator} (h : operator.isUnary = false) :
    Operator.ofToken? operator.token = some operator := by
  cases operator <;> first | rfl | cases h

/-! ## Single tokens -/

namespace Reader

theorem take_cons (t : Token) (ts : List Token) : take (t :: ts) = .ok t ts := rfl

theorem peek_eq (ts : List Token) : peek ts = .ok (Token.ahead ts) ts := rfl

theorem expect_cons (t : Token) (ts : List Token) : expect t (t :: ts) = .ok () ts := by
  unfold expect
  rw [bind_of_ok (take_cons t ts), if_pos rfl]
  rfl

theorem skipSemicolon_cons (ts : List Token) : skipSemicolon (.semicolon :: ts) = .ok () ts := rfl

/-! ## Statements that are not at an end -/

theorem programOnto_of_ne {acc : List Stmt} (hend : Token.ahead ts ≠ .endOfFile) :
    programOnto acc (fuel + 1) ts =
      (statement fuel >>= fun s => programOnto (s :: acc) fuel) ts := by
  rw [programOnto, bind_of_ok (peek_eq ts), if_neg hend]

theorem statementsOnto_of_ne {acc : List Stmt} (hbrace : Token.ahead ts ≠ .rightBrace)
    (hend : Token.ahead ts ≠ .endOfFile) : statementsOnto acc (fuel + 1) ts =
      (statement fuel >>= fun s => statementsOnto (s :: acc) fuel) ts := by
  rw [statementsOnto, bind_of_ok (peek_eq ts)]
  generalize Token.ahead ts = t at hbrace hend ⊢
  split
  · exact absurd rfl hbrace
  · exact absurd rfl hend
  · rfl

/-- An expression is a statement. -/
theorem statement_of_ne (hlet : Token.ahead ts ≠ .letWord)
    (hreturn : Token.ahead ts ≠ .returnWord) :
    statement (fuel + 1) ts = (expression fuel .lowest >>= fun value => skipSemicolon >>= fun _ =>
      pure (.eval value)) ts := by
  rw [statement, bind_of_ok (peek_eq ts)]
  generalize Token.ahead ts = t at hlet hreturn ⊢
  split
  · exact absurd rfl hlet
  · exact absurd rfl hreturn
  · rfl

/-! ## Parameter lists -/

theorem parametersOnto_names (acc : List String) (name : String) (names : List String) :
    parametersOnto acc (.identifier name :: (Token.moreNames names ++ .rightParen :: rest)) =
      .ok (acc.reverse ++ name :: names) rest := by
  induction names generalizing acc name with
  | nil => simp [parametersOnto, Token.moreNames]
  | cons next names ih => simp [parametersOnto, Token.moreNames, ih]

theorem parameters_names (names : List String) (rest : List Token) :
    parameters (Token.names names ++ .rightParen :: rest) = .ok names rest := by
  cases names with
  | nil => rfl
  | cons name names => exact parametersOnto_names [] name names

/-! ## Expressions -/

theorem expression_of_operand (h : operand fuel t ts = .ok e rest) :
    expression (fuel + 1) bound (t :: ts) = operators fuel bound e rest := by
  unfold expression
  rw [bind_of_ok (take_cons t ts), bind_of_ok h]

/-- The bound does not reach into parentheses. -/
theorem expression_paren (h : expression fuel .lowest ts = .ok e (.rightParen :: rest)) :
    expression (fuel + 2) bound (.leftParen :: ts) = operators (fuel + 1) bound e rest := by
  have hoperand : operand (fuel + 1) .leftParen ts = .ok e rest :=
    (bind_of_ok h).trans (bind_of_ok (expect_cons ..))
  exact expression_of_operand hoperand

/-- An expression ends before a token that does not bind more tightly than the bound. -/
theorem operators_stop (hfuel : 0 < fuel)
    (h : (Precedence.ofToken (Token.ahead rest)).rank ≤ bound.rank) :
    operators fuel bound e rest = .ok e rest := by
  obtain ⟨fuel, rfl⟩ := Nat.exists_eq_succ_of_ne_zero (Nat.ne_of_gt hfuel)
  unfold operators
  have hstop : ¬ bound < Precedence.ofToken (Token.ahead rest) := Nat.not_lt_of_le h
  rw [bind_of_ok (peek_eq rest), if_neg hstop]
  rfl

theorem operators_of_lt {left : Expr} {operator : Operator} (hbound : bound < .ofToken t)
    (hoperator : Operator.ofToken? t = some operator) :
    operators (fuel + 1) bound left (t :: ts) =
      (expression fuel (.ofToken t) >>= fun right =>
        operators fuel bound (.binary left operator right)) ts := by
  have hahead : Token.ahead (t :: ts) = t := rfl
  rw [operators, bind_of_ok (peek_eq _), hahead, if_pos hbound, bind_of_ok (take_cons t ts)]
  cases t <;> cases hoperator <;> rfl

theorem operators_paren {callee : Expr} (hbound : bound < .ofToken .leftParen) :
    operators (fuel + 1) bound callee (.leftParen :: ts) =
      (elements fuel .rightParen >>= fun arguments =>
        operators fuel bound (.call callee arguments)) ts := by
  have hahead : Token.ahead (.leftParen :: ts) = .leftParen := rfl
  rw [operators, bind_of_ok (peek_eq _), hahead, if_pos hbound, bind_of_ok (take_cons _ ts)]

theorem operators_bracket {collection : Expr} (hbound : bound < .ofToken .leftBracket) :
    operators (fuel + 1) bound collection (.leftBracket :: ts) =
      (expression fuel .lowest >>= fun key => expect .rightBracket >>= fun _ =>
        operators fuel bound (.index collection key)) ts := by
  have hahead : Token.ahead (.leftBracket :: ts) = .leftBracket := rfl
  rw [operators, bind_of_ok (peek_eq _), hahead, if_pos hbound, bind_of_ok (take_cons _ ts)]

theorem operators_binary {operator : Operator} {left right : Expr}
    (hbinary : operator.isUnary = false) (hbound : bound < .ofToken operator.token)
    (h : expression fuel (.ofToken operator.token) ts = .ok right rest) :
    operators (fuel + 1) bound left (operator.token :: ts) =
      operators fuel bound (.binary left operator right) rest :=
  (operators_of_lt hbound (Operator.ofToken?_token hbinary)).trans (bind_of_ok h)

theorem operators_call {callee : Expr} {arguments : List Expr}
    (hbound : bound < .ofToken .leftParen)
    (h : elements fuel .rightParen ts = .ok arguments rest) :
    operators (fuel + 1) bound callee (.leftParen :: ts) =
      operators fuel bound (.call callee arguments) rest :=
  (operators_paren hbound).trans (bind_of_ok h)

theorem operators_index {collection key : Expr} (hbound : bound < .ofToken .leftBracket)
    (h : expression fuel .lowest ts = .ok key (.rightBracket :: rest)) :
    operators (fuel + 1) bound collection (.leftBracket :: ts) =
      operators fuel bound (.index collection key) rest :=
  (operators_bracket hbound).trans ((bind_of_ok h).trans (bind_of_ok (expect_cons ..)))

end Reader

open Reader

/-- Reading an expression, with other tokens behind it, comes to the point at which the whole
expression is the left operand of what may follow.  A function literal is read without a name. -/
structure Expr.Reads (e : Expr) : Prop where
  starts : Token.Starts e.tokens
  loose : Precedence.lowest.rank < e.strength.rank
  expression : ∀ {fuel bound rest}, 4 * e.tokens.length ≤ fuel →
    bound.rank ≤ Precedence.unary.rank →
    (e.strength.rank < Precedence.unary.rank → bound.rank < e.strength.rank) → e.Ends rest →
    ∃ left, fuel ≤ left + 1 + e.tokens.length ∧
      expression fuel bound (e.tokens ++ rest) = operators left bound e.anonymous rest

/-- Reading an expression that has no name to lose comes to the expression itself. -/
structure Expr.ReadsBack (e : Expr) : Prop extends e.Reads where
  unnamed : e.anonymous = e

/-- Before tokens that end every expression, the given ones are read as the expression. -/
structure Expr.ReadFrom (e : Expr) (ts : List Token) : Prop where
  starts : Token.Starts ts
  closed : ∀ {fuel rest}, 4 * ts.length ≤ fuel → Token.Closes rest →
    Reader.expression fuel .lowest (ts ++ rest) = .ok e rest

/-- Reading a statement, with other tokens behind it, comes to the statement. -/
structure Stmt.ReadsBack (s : Stmt) : Prop where
  starts : ∃ t ts, s.tokens = t :: ts ∧ t ≠ .rightBrace ∧ t ≠ .endOfFile
  statement : ∀ {fuel rest}, 4 * s.tokens.length ≤ fuel →
    statement fuel (s.tokens ++ rest) = .ok s rest

namespace Expr

/-- An expression before a token that ends it. -/
theorem Reads.closed (h : e.Reads) (hfuel : 4 * e.tokens.length ≤ fuel)
    (hcloses : Token.Closes rest) :
    Reader.expression fuel .lowest (e.tokens ++ rest) = .ok e.anonymous rest := by
  have hlength := h.starts.length_pos
  obtain ⟨left, hleft, heq⟩ := h.expression hfuel (Nat.zero_le _) (fun _ => h.loose)
    (hcloses.ends e)
  rw [heq]
  exact operators_stop (by omega) (Nat.le_of_eq (congrArg Precedence.rank hcloses.strength))

namespace ReadsBack

theorem closed (h : e.ReadsBack) (hfuel : 4 * e.tokens.length ≤ fuel)
    (hcloses : Token.Closes rest) :
    Reader.expression fuel .lowest (e.tokens ++ rest) = .ok e rest := by
  rw [h.toReads.closed hfuel hcloses, h.unnamed]

theorem readFrom (h : e.ReadsBack) : e.ReadFrom e.tokens := ⟨h.starts, h.closed⟩

variable {needed : Bool}

/-- An operand, in parentheses or not. -/
theorem around (h : e.ReadsBack) (rest : List Token)
    (hfuel : 4 * (Token.around needed e.tokens).length ≤ fuel)
    (hbound : bound.rank ≤ Precedence.unary.rank)
    (hloose : needed = false → e.strength.rank < Precedence.unary.rank →
      bound.rank < e.strength.rank)
    (hends : needed = false → e.Ends rest) :
    ∃ left, fuel ≤ left + 1 + (Token.around needed e.tokens).length ∧
      Reader.expression fuel bound (Token.around needed e.tokens ++ rest) =
        operators left bound e rest := by
  cases needed with
  | false =>
    have hread := h.expression hfuel hbound (hloose rfl) (hends rfl)
    rw [h.unnamed] at hread
    exact hread
  | true =>
    simp only [Token.around, if_true, List.length_cons, List.length_append, List.length_nil] at *
    obtain ⟨fuel, rfl⟩ := Nat.exists_eq_add_of_le' (show 2 ≤ fuel by omega)
    refine ⟨fuel + 1, by omega, ?_⟩
    rw [List.cons_append, List.append_assoc, List.singleton_append]
    exact expression_paren (h.closed (by omega) (Token.closes_cons (by decide) rfl))

/-- An operand before a token that does not bind more tightly than the bound. -/
theorem around_stop (h : e.ReadsBack) (hfuel : 4 * (Token.around needed e.tokens).length ≤ fuel)
    (hbound : bound.rank ≤ Precedence.unary.rank)
    (hloose : needed = false → e.strength.rank < Precedence.unary.rank →
      bound.rank < e.strength.rank)
    (hends : needed = false → e.Ends rest)
    (hstop : (Precedence.ofToken (Token.ahead rest)).rank ≤ bound.rank) :
    Reader.expression fuel bound (Token.around needed e.tokens ++ rest) = .ok e rest := by
  have hlength := (h.starts.around needed).length_pos
  obtain ⟨left, hleft, heq⟩ := h.around rest hfuel hbound hloose hends
  rw [heq]
  exact operators_stop (by omega) hstop

/-- An operand before the token that opens the arguments of a call or an index. -/
theorem around_postfix (h : e.ReadsBack) (rest : List Token)
    (hfuel : 4 * (Token.around (e.strength < .call) e.tokens).length ≤ fuel)
    (hbound : bound.rank ≤ Precedence.unary.rank) (ht : t ≠ .elseWord) :
    ∃ left, fuel ≤ left + 2 + (Token.around (e.strength < .call) e.tokens).length ∧
      Reader.expression fuel bound (Token.around (e.strength < .call) e.tokens ++ t :: rest) =
        operators (left + 1) bound e (t :: rest) := by
  have hlength := (h.starts.around (e.strength < .call)).length_pos
  -- without parentheses it is no looser than a call, so that no bound is in its way
  obtain ⟨left, hleft, heq⟩ := h.around (t :: rest) hfuel hbound
    (fun hneeded hlt => absurd (Nat.lt_succ_of_lt hlt) (of_decide_eq_false hneeded))
    (fun hneeded => ⟨ht, fun hle => absurd (Nat.lt_succ_of_le hle) (of_decide_eq_false hneeded)⟩)
  obtain ⟨left, rfl⟩ := Nat.exists_eq_add_of_le' (show 1 ≤ left by omega)
  exact ⟨left, by omega, heq⟩

end ReadsBack

end Expr

/-! ## Lists -/

/-- Tokens with commas between them. -/
def Token.separated : List (List Token) → List Token
  | [] => []
  | ts :: rest => ts ++ rest.flatMap (.comma :: ·)

namespace Token

theorem separated_singleton (ts : List Token) : separated [ts] = ts := List.append_nil ts

theorem separated_cons_cons (ts us : List Token) (tss : List (List Token)) :
    separated (ts :: us :: tss) = ts ++ .comma :: separated (us :: tss) := by
  simp [separated]

theorem Starts.separated (h : Starts ts) (tss : List (List Token)) :
    Starts (separated (ts :: tss)) :=
  h.append _

end Token

/-- The tokens of a hash entry, of which the parts are spelled in the given way. -/
def Expr.entrySpelled (spell : Expr → List Token) (pair : Expr × Expr) : List Token :=
  spell pair.1 ++ .colon :: spell pair.2

theorem Expr.listTokens_eq (es : List Expr) :
    Expr.listTokens es = Token.separated (es.map Expr.tokens) := by
  have hmore : ∀ es, Expr.moreTokens es = (es.map Expr.tokens).flatMap (.comma :: ·) := by
    intro es
    induction es with
    | nil => rfl
    | cons e es ih => simp [Expr.moreTokens, ih]
  cases es with
  | nil => rfl
  | cons e es => rw [Expr.listTokens, hmore, List.map_cons, Token.separated]

theorem Expr.entryTokens_eq (pairs : List (Expr × Expr)) :
    Expr.entryTokens pairs = Token.separated (pairs.map (Expr.entrySpelled Expr.tokens)) := by
  have hmore : ∀ pairs, Expr.moreEntryTokens pairs =
      (pairs.map (Expr.entrySpelled Expr.tokens)).flatMap (.comma :: ·) := by
    intro pairs
    induction pairs with
    | nil => rfl
    | cons p pairs ih => simp [Expr.moreEntryTokens, Expr.entrySpelled, ih]
  cases pairs with
  | nil => rfl
  | cons p pairs =>
    rw [Expr.entryTokens, hmore, List.map_cons, Token.separated, Expr.entrySpelled,
      List.append_assoc, List.cons_append]

namespace Reader

variable {close : Token}

/-- The tokens that close a list of expressions. -/
def closesList : Token → Bool
  | .rightParen | .rightBracket => true
  | _ => false

theorem closes_of_closesList (h : closesList close = true) (rest : List Token) :
    Token.Closes (close :: rest) := by
  cases close with
  | rightParen => exact Token.closes_cons (by decide) rfl
  | rightBracket => exact Token.closes_cons (by decide) rfl
  | _ => cases h

theorem ne_of_startsOperand (ht : t.startsOperand = true) (h : close.startsOperand = false) :
    t ≠ close := by
  rintro rfl
  rw [ht] at h
  cases h

variable {spell : Expr → List Token}

/-- The elements behind those in `acc`, of which there is at least one. -/
theorem elementsOnto_separated (hclose : closesList close = true) {es : List Expr}
    (he : e.ReadFrom (spell e)) (hes : ∀ e ∈ es, e.ReadFrom (spell e)) (acc : List Expr)
    (hfuel : 4 * (Token.separated ((e :: es).map spell)).length + 1 ≤ fuel) :
    elementsOnto acc fuel close (Token.separated ((e :: es).map spell) ++ close :: rest) =
      .ok (acc.reverse ++ e :: es) rest := by
  induction es generalizing acc fuel e with
  | nil =>
    simp only [List.map_cons, List.map_nil, Token.separated_singleton] at hfuel ⊢
    obtain ⟨fuel, rfl⟩ := Nat.exists_eq_add_of_le' (Nat.le_of_add_left_le hfuel)
    have hread : expression fuel .lowest (spell e ++ close :: rest) = .ok e (close :: rest) :=
      he.closed (by omega) (closes_of_closesList hclose rest)
    have hcomma : close ≠ .comma := by rintro rfl; cases hclose
    unfold elementsOnto
    rw [bind_of_ok hread, bind_of_ok (take_cons close rest), if_neg hcomma, if_pos rfl]
    simp
  | cons next es ih =>
    obtain ⟨fuel, rfl⟩ := Nat.exists_eq_add_of_le' (Nat.le_of_add_left_le hfuel)
    simp only [List.map_cons, Token.separated_cons_cons, List.length_append,
      List.length_cons] at hfuel
    have hread : expression fuel .lowest
        (spell e ++ .comma :: (Token.separated ((next :: es).map spell) ++ close :: rest)) =
        .ok e (.comma :: (Token.separated ((next :: es).map spell) ++ close :: rest)) :=
      he.closed (by omega) (Token.closes_cons (by decide) rfl)
    have hfuel' : 4 * (Token.separated ((next :: es).map spell)).length + 1 ≤ fuel := by
      rw [List.map_cons]
      omega
    have hmore := ih (hes next (.head _)) (fun e' he' => hes e' (.tail _ he')) (e :: acc) hfuel'
    unfold elementsOnto
    rw [List.map_cons, List.map_cons, Token.separated_cons_cons, List.append_assoc,
      List.cons_append, ← List.map_cons, bind_of_ok hread, bind_of_ok (take_cons ..), if_pos rfl,
      hmore]
    simp

theorem elements_separated (hclose : closesList close = true) {es : List Expr}
    (hes : ∀ e ∈ es, e.ReadFrom (spell e))
    (hfuel : 4 * (Token.separated (es.map spell)).length + 2 ≤ fuel) :
    elements fuel close (Token.separated (es.map spell) ++ close :: rest) = .ok es rest := by
  obtain ⟨fuel, rfl⟩ := Nat.exists_eq_add_of_le' (Nat.le_of_add_left_le hfuel)
  rw [elements, bind_of_ok (peek_eq _)]
  cases es with
  | nil => exact if_pos rfl ▸ rfl
  | cons e es =>
    have he := hes e (.head _)
    obtain ⟨t, ts, htokens, ht⟩ := (he.starts.separated (es.map spell)).append (close :: rest)
    have hstart : Token.ahead (Token.separated ((e :: es).map spell) ++ close :: rest) ≠ close := by
      rw [List.map_cons, htokens]
      exact ne_of_startsOperand ht (by cases close <;> first | rfl | cases hclose)
    rw [if_neg hstart]
    exact elementsOnto_separated hclose he (fun e' he' => hes e' (.tail _ he')) [] (by omega)

theorem elements_tokens (hclose : closesList close = true) {es : List Expr}
    (hes : ∀ e ∈ es, e.ReadsBack) (hfuel : 4 * (Expr.listTokens es).length + 2 ≤ fuel) :
    elements fuel close (Expr.listTokens es ++ close :: rest) = .ok es rest := by
  rw [Expr.listTokens_eq] at hfuel ⊢
  exact elements_separated hclose (fun e he => (hes e he).readFrom) hfuel

/-- What is done behind a hash entry, the last one in `acc`. -/
def behindEntry (acc : List (Expr × Expr)) (fuel : Nat) : Reader (List (Expr × Expr)) := do
  match ← peek with
  | .comma => do
    let _ ← take
    entriesOnto acc fuel
  | .rightBrace => entriesOnto acc fuel
  | found => throw (.expectedEntryEnd found)

/-- Behind the key of an entry, its value is read. -/
theorem entriesOnto_of_ne {acc : List (Expr × Expr)} {key : Expr}
    (hbrace : Token.ahead ts ≠ .rightBrace)
    (hkey : expression fuel .lowest ts = .ok key (.colon :: rest)) :
    entriesOnto acc (fuel + 1) ts =
      (expression fuel .lowest >>= fun value => behindEntry ((key, value) :: acc) fuel) rest := by
  rw [entriesOnto, bind_of_ok (peek_eq ts), if_neg hbrace, bind_of_ok hkey,
    bind_of_ok (expect_cons ..)]
  rfl

theorem entriesOnto_entry {key value : Expr} (hkey : key.ReadFrom (spell key))
    (hvalue : value.ReadFrom (spell value)) (acc : List (Expr × Expr))
    (hfuel : 4 * ((spell key).length + (spell value).length) ≤ fuel)
    (hcloses : Token.Closes rest) :
    entriesOnto acc (fuel + 1) (Expr.entrySpelled spell (key, value) ++ rest) =
      behindEntry ((key, value) :: acc) fuel rest := by
  rw [Expr.entrySpelled, List.append_assoc, List.cons_append]
  obtain ⟨t, ts, htokens, ht⟩ := hkey.starts
  have hstart : Token.ahead (spell key ++ .colon :: (spell value ++ rest)) ≠ .rightBrace := by
    rw [htokens]
    exact ne_of_startsOperand ht rfl
  have hread : expression fuel .lowest (spell key ++ .colon :: (spell value ++ rest)) =
      .ok key (.colon :: (spell value ++ rest)) :=
    hkey.closed (by omega) (Token.closes_cons (by decide) rfl)
  have hread' : expression fuel .lowest (spell value ++ rest) = .ok value rest :=
    hvalue.closed (by omega) hcloses
  exact (entriesOnto_of_ne hstart hread).trans (bind_of_ok hread')

/-- The entries behind those in `acc`, of which there is at least one. -/
theorem entriesOnto_separated {pair : Expr × Expr} {pairs : List (Expr × Expr)}
    (hpair : pair.1.ReadFrom (spell pair.1) ∧ pair.2.ReadFrom (spell pair.2))
    (hpairs : ∀ p ∈ pairs, p.1.ReadFrom (spell p.1) ∧ p.2.ReadFrom (spell p.2))
    (acc : List (Expr × Expr))
    (hfuel : 4 * (Token.separated ((pair :: pairs).map (Expr.entrySpelled spell))).length ≤ fuel) :
    entriesOnto acc fuel
        (Token.separated ((pair :: pairs).map (Expr.entrySpelled spell)) ++ .rightBrace :: rest) =
      .ok (acc.reverse ++ pair :: pairs) rest := by
  induction pairs generalizing acc fuel pair with
  | nil =>
    simp only [List.map_cons, List.map_nil, Token.separated_singleton] at hfuel ⊢
    simp only [Expr.entrySpelled, List.length_append, List.length_cons] at hfuel
    obtain ⟨fuel, rfl⟩ := Nat.exists_eq_add_of_le' (show 2 ≤ fuel by omega)
    have hcloses : Token.Closes (.rightBrace :: rest) := Token.closes_cons (by decide) rfl
    rw [entriesOnto_entry hpair.1 hpair.2 acc (by omega) hcloses, List.append_cons,
      ← List.reverse_cons, List.append_nil]
    rfl
  | cons next pairs ih =>
    have hnext := hpairs next (.head _)
    simp only [List.map_cons, Token.separated_cons_cons, List.length_append,
      List.length_cons] at hfuel
    obtain ⟨fuel, rfl⟩ := Nat.exists_eq_add_of_le' (show 1 ≤ fuel by omega)
    have hfuel' :
        4 * (Token.separated ((next :: pairs).map (Expr.entrySpelled spell))).length ≤ fuel := by
      rw [List.map_cons]
      omega
    have hmore := ih hnext (fun p hp => hpairs p (.tail _ hp)) (pair :: acc) hfuel'
    have hcloses : Token.Closes (.comma ::
        (Token.separated ((next :: pairs).map (Expr.entrySpelled spell)) ++ .rightBrace :: rest)) :=
      Token.closes_cons (by decide) rfl
    simp only [Expr.entrySpelled, List.length_append, List.length_cons] at hfuel
    rw [List.map_cons, List.map_cons, Token.separated_cons_cons, List.append_assoc,
      List.cons_append, ← List.map_cons, entriesOnto_entry hpair.1 hpair.2 acc (by omega) hcloses]
    refine Eq.trans ?_ (hmore.trans ?_)
    · rfl
    · simp

/-- The entries of a hash literal. -/
theorem entries_separated {pairs : List (Expr × Expr)}
    (hpairs : ∀ p ∈ pairs, p.1.ReadFrom (spell p.1) ∧ p.2.ReadFrom (spell p.2))
    (hfuel : 4 * (Token.separated (pairs.map (Expr.entrySpelled spell))).length + 1 ≤ fuel) :
    entriesOnto [] fuel
        (Token.separated (pairs.map (Expr.entrySpelled spell)) ++ .rightBrace :: rest) =
      .ok pairs rest := by
  cases pairs with
  | nil =>
    obtain ⟨fuel, rfl⟩ := Nat.exists_eq_add_of_le' (Nat.le_of_add_left_le hfuel)
    rfl
  | cons p pairs =>
    exact entriesOnto_separated (hpairs _ (.head _)) (fun p hp => hpairs p (.tail _ hp)) []
      (by omega)

theorem entries_tokens {pairs : List (Expr × Expr)}
    (hpairs : ∀ p ∈ pairs, p.1.ReadsBack ∧ p.2.ReadsBack)
    (hfuel : 4 * (Expr.entryTokens pairs).length + 1 ≤ fuel) :
    entriesOnto [] fuel (Expr.entryTokens pairs ++ .rightBrace :: rest) = .ok pairs rest := by
  rw [Expr.entryTokens_eq] at hfuel ⊢
  exact entries_separated (fun p hp => ⟨(hpairs p hp).1.readFrom, (hpairs p hp).2.readFrom⟩) hfuel

/-! ## Blocks -/

theorem statementsOnto_tokens {body : List Stmt} (hbody : ∀ s ∈ body, s.ReadsBack)
    (acc : List Stmt) (hfuel : 4 * (Program.tokens body).length + 1 ≤ fuel) :
    statementsOnto acc fuel (Program.tokens body ++ .rightBrace :: rest) =
      .ok (acc.reverse ++ body) rest := by
  induction body generalizing acc fuel with
  | nil =>
    obtain ⟨fuel, rfl⟩ := Nat.exists_eq_add_of_le' (Nat.le_of_add_left_le hfuel)
    rw [List.append_nil]
    rfl
  | cons s body ih =>
    obtain ⟨fuel, rfl⟩ := Nat.exists_eq_add_of_le' (Nat.le_of_add_left_le hfuel)
    have hs := hbody s (.head _)
    obtain ⟨t, ts, htokens, hbrace, hend⟩ := hs.starts
    have hlength : 0 < s.tokens.length := by rw [htokens]; exact Nat.succ_pos _
    simp only [Program.tokens, List.length_append] at hfuel
    have hfuel' : 4 * (Program.tokens body).length + 1 ≤ fuel := by omega
    have hmore := ih (fun s' hs' => hbody s' (.tail _ hs')) (s :: acc) hfuel'
    have hread : statement fuel (s.tokens ++ (Program.tokens body ++ .rightBrace :: rest)) =
        .ok s (Program.tokens body ++ .rightBrace :: rest) := hs.statement (by omega)
    have hahead : Token.ahead (s.tokens ++ (Program.tokens body ++ .rightBrace :: rest)) = t := by
      rw [htokens]
      rfl
    rw [Program.tokens, List.append_assoc, statementsOnto_of_ne (hahead ▸ hbrace) (hahead ▸ hend),
      bind_of_ok hread, hmore, List.reverse_cons, ← List.append_cons]

theorem programOnto_tokens {program : Program} (hprogram : ∀ s ∈ program, s.ReadsBack)
    (acc : List Stmt) (hfuel : 4 * (Program.tokens program).length + 1 ≤ fuel) :
    programOnto acc fuel (Program.tokens program) = .ok (acc.reverse ++ program) [] := by
  induction program generalizing acc fuel with
  | nil =>
    obtain ⟨fuel, rfl⟩ := Nat.exists_eq_add_of_le' (Nat.le_of_add_left_le hfuel)
    rw [List.append_nil]
    rfl
  | cons s program ih =>
    obtain ⟨fuel, rfl⟩ := Nat.exists_eq_add_of_le' (Nat.le_of_add_left_le hfuel)
    have hs := hprogram s (.head _)
    obtain ⟨t, ts, htokens, -, hend⟩ := hs.starts
    have hlength : 0 < s.tokens.length := by rw [htokens]; exact Nat.succ_pos _
    simp only [Program.tokens, List.length_append] at hfuel
    have hfuel' : 4 * (Program.tokens program).length + 1 ≤ fuel := by omega
    have hmore := ih (fun s' hs' => hprogram s' (.tail _ hs')) (s :: acc) hfuel'
    have hread : statement fuel (s.tokens ++ Program.tokens program) =
        .ok s (Program.tokens program) := hs.statement (by omega)
    have hahead : Token.ahead (s.tokens ++ Program.tokens program) ≠ .endOfFile := by
      rw [htokens]
      exact hend
    rw [Program.tokens, programOnto_of_ne hahead, bind_of_ok hread, hmore, List.reverse_cons,
      ← List.append_cons]

end Reader

/-! ## The kinds of expressions -/

/-- A binary operator binds more loosely than a unary one. -/
theorem Operator.precedence_bounds (operator : Operator) (hbinary : operator.isUnary = false) :
    Precedence.lowest.rank < (Precedence.ofToken operator.token).rank ∧
      (Precedence.ofToken operator.token).rank < Precedence.unary.rank := by
  cases operator with
  | not => cases hbinary
  | negate => cases hbinary
  | _ => decide

theorem Operator.token_ne_elseWord (operator : Operator) : operator.token ≠ .elseWord := by
  cases operator <;> decide

namespace Expr

/-- An expression that a single operand of the reader is. -/
theorem Reads.of_operand (htokens : e.tokens = t :: ts) (ht : t.startsOperand = true)
    (hloose : Precedence.lowest.rank < e.strength.rank)
    (h : ∀ {fuel rest}, 4 * ts.length + 3 ≤ fuel → e.Ends rest →
      operand fuel t (ts ++ rest) = .ok e.anonymous rest) : e.Reads where
  starts := ⟨t, ts, htokens, ht⟩
  loose := hloose
  expression {fuel bound rest} hfuel _ _ hends := by
    rw [htokens, List.length_cons] at hfuel ⊢
    obtain ⟨fuel, rfl⟩ := Nat.exists_eq_add_of_le' (show 1 ≤ fuel by omega)
    exact ⟨fuel, by omega, expression_of_operand (h (by omega) hends)⟩

/-- An expression of a single token. -/
theorem ReadsBack.of_token (htokens : e.tokens = [t]) (ht : t.startsOperand = true)
    (hloose : Precedence.lowest.rank < e.strength.rank) (hname : e.anonymous = e)
    (h : ∀ fuel rest, operand (fuel + 1) t rest = .ok e rest) : e.ReadsBack where
  toReads := by
    refine .of_operand htokens ht hloose fun {fuel rest} hfuel _ => ?_
    obtain ⟨fuel, rfl⟩ := Nat.exists_eq_add_of_le' (show 1 ≤ fuel by omega)
    rw [hname]
    exact h fuel rest
  unnamed := hname

theorem reads_identifier (name : String) : (Expr.identifier name).ReadsBack :=
  .of_token rfl rfl (Nat.succ_pos _) rfl fun _ _ => rfl

theorem reads_integer (value : Int64) : (Expr.integer value).ReadsBack :=
  .of_token rfl rfl (Nat.succ_pos _) rfl fun _ _ => rfl

theorem reads_string (contents : String) : (Expr.string contents).ReadsBack :=
  .of_token rfl rfl (Nat.succ_pos _) rfl fun _ _ => rfl

theorem reads_boolean (value : Bool) : (Expr.boolean value).ReadsBack := by
  cases value with
  | false => exact .of_token rfl rfl (by decide) rfl fun _ _ => rfl
  | true => exact .of_token rfl rfl (by decide) rfl fun _ _ => rfl

theorem reads_array {elements : List Expr} (helements : ∀ e ∈ elements, e.ReadsBack) :
    (Expr.array elements).ReadsBack where
  toReads := by
    refine .of_operand rfl rfl (Nat.succ_pos _) fun {fuel rest} hfuel _ => ?_
    obtain ⟨fuel, rfl⟩ := Nat.exists_eq_add_of_le' (show 1 ≤ fuel by omega)
    simp only [List.length_append, List.length_cons] at hfuel
    have hread : Reader.elements fuel .rightBracket
        (Expr.listTokens elements ++ .rightBracket :: rest) = .ok elements rest :=
      elements_tokens rfl helements (by omega)
    rw [List.append_assoc]
    exact bind_of_ok hread
  unnamed := rfl

theorem reads_hash {pairs : List (Expr × Expr)}
    (hpairs : ∀ p ∈ pairs, p.1.ReadsBack ∧ p.2.ReadsBack) : (Expr.hash pairs).ReadsBack where
  toReads := by
    refine .of_operand rfl rfl (Nat.succ_pos _) fun {fuel rest} hfuel _ => ?_
    obtain ⟨fuel, rfl⟩ := Nat.exists_eq_add_of_le' (show 1 ≤ fuel by omega)
    simp only [List.length_append, List.length_cons] at hfuel
    have hread : entriesOnto [] fuel (Expr.entryTokens pairs ++ .rightBrace :: rest) =
        .ok pairs rest := entries_tokens hpairs (by omega)
    rw [List.append_assoc]
    exact bind_of_ok hread
  unnamed := rfl

theorem reads_function {name : Option String} {parameters : List String} {body : Program}
    (hbody : ∀ s ∈ body, s.ReadsBack) : (Expr.function name parameters body).Reads := by
  refine .of_operand rfl rfl (Nat.succ_pos _) fun {fuel rest} hfuel _ => ?_
  simp only [List.length_append, List.length_cons] at hfuel
  obtain ⟨fuel, rfl⟩ := Nat.exists_eq_add_of_le' (show 1 ≤ fuel by omega)
  have hread : statementsOnto [] fuel (Program.tokens body ++ .rightBrace :: rest) =
      .ok body rest := statementsOnto_tokens hbody [] (by omega)
  have hnames := parameters_names parameters
    (.leftBrace :: (Program.tokens body ++ .rightBrace :: rest))
  simp only [List.cons_append, List.append_assoc, List.nil_append]
  refine (bind_of_ok (expect_cons ..)).trans ((bind_of_ok hnames).trans ?_)
  exact (bind_of_ok (expect_cons ..)).trans (bind_of_ok hread)

theorem reads_conditional {condition : Expr} {consequence : Program} {alternative : Option Program}
    (hcondition : condition.ReadsBack) (hconsequence : ∀ s ∈ consequence, s.ReadsBack)
    (halternative : ∀ block, alternative = some block → ∀ s ∈ block, s.ReadsBack) :
    (Expr.conditional condition consequence alternative).ReadsBack where
  toReads := by
    refine .of_operand rfl rfl (Nat.succ_pos _) fun {fuel rest} hfuel hends => ?_
    simp only [List.length_append, List.length_cons] at hfuel
    obtain ⟨fuel, rfl⟩ := Nat.exists_eq_add_of_le' (show 2 ≤ fuel by omega)
    have hthen : statementsOnto [] fuel (Program.tokens consequence ++
        .rightBrace :: (Expr.elseTokens alternative ++ rest)) =
        .ok consequence (Expr.elseTokens alternative ++ rest) :=
      statementsOnto_tokens hconsequence [] (by omega)
    have hif : Reader.expression fuel .lowest (condition.tokens ++ .rightParen :: .leftBrace ::
        (Program.tokens consequence ++ .rightBrace :: (Expr.elseTokens alternative ++ rest))) =
        .ok condition (.rightParen :: .leftBrace ::
          (Program.tokens consequence ++ .rightBrace :: (Expr.elseTokens alternative ++ rest))) :=
      hcondition.closed (by omega) (Token.closes_cons (by decide) rfl)
    simp only [List.cons_append, List.append_assoc]
    show Reader.conditional (fuel + 1) _ = _
    rw [Reader.conditional, bind_of_ok (expect_cons ..), bind_of_ok hif,
      bind_of_ok (expect_cons ..), bind_of_ok (expect_cons ..), bind_of_ok hthen,
      bind_of_ok (peek_eq _)]
    cases alternative with
    | none => exact if_neg hends.word ▸ rfl
    | some block =>
      simp only [Expr.elseTokens, List.length_append, List.length_cons] at hfuel
      have helse : statementsOnto [] fuel (Program.tokens block ++ .rightBrace :: rest) =
          .ok block rest := statementsOnto_tokens (halternative block rfl) [] (by omega)
      simp only [Expr.elseTokens, List.cons_append, List.append_assoc, List.nil_append]
      have hahead : Token.ahead (.elseWord :: .leftBrace :: (Program.tokens block ++
        .rightBrace :: rest)) = .elseWord := rfl
      have hahead' : Token.ahead (.leftBrace :: (Program.tokens block ++ .rightBrace :: rest)) ≠
        .ifWord := nofun
      rw [if_pos hahead, bind_of_ok (take_cons ..), bind_of_ok (peek_eq _), if_neg hahead',
        bind_of_ok (expect_cons ..), bind_of_ok helse]
      rfl
  unnamed := rfl

theorem reads_unary {operator : Operator} {operand : Expr} (hunary : operator.isUnary = true)
    (h : operand.ReadsBack) : (Expr.unary operator operand).ReadsBack where
  toReads := by
    have hstart : operator.token.startsOperand = true := by
      cases operator with
      | not => rfl
      | negate => rfl
      | _ => cases hunary
    refine .of_operand rfl hstart (Nat.succ_pos _) fun {fuel rest} hfuel hends => ?_
    obtain ⟨fuel, rfl⟩ := Nat.exists_eq_add_of_le' (show 1 ≤ fuel by omega)
    have hstop : (Precedence.ofToken (Token.ahead rest)).rank ≤ Precedence.unary.rank :=
      hends.strength (Nat.le_refl _)
    have hread : Reader.expression fuel .unary
        (Token.around (operand.strength < .unary) operand.tokens ++ rest) = .ok operand rest :=
      h.around_stop (by omega) (Nat.le_refl _)
        (fun hneeded hlt => absurd hlt (of_decide_eq_false hneeded))
        (fun hneeded => ⟨hends.word, fun _ =>
          Nat.le_trans hstop (Nat.le_of_not_lt (of_decide_eq_false hneeded))⟩) hstop
    cases operator with
    | not => exact bind_of_ok hread
    | negate => exact bind_of_ok hread
    | _ => cases hunary
  unnamed := rfl

/-- A binary expression reads on from its left operand. -/
theorem reads_binary {left right : Expr} {operator : Operator}
    (hbinary : operator.isUnary = false) (hleft : left.ReadsBack) (hright : right.ReadsBack) :
    (Expr.binary left operator right).ReadsBack where
  starts := (hleft.starts.around _).append _
  loose := operator.precedence_bounds hbinary |>.1
  expression {fuel bound rest} hfuel hbound hloose hends := by
    obtain ⟨hlow, hhigh⟩ := operator.precedence_bounds hbinary
    have hpass : bound < .ofToken operator.token := hloose hhigh
    have hstop : (Precedence.ofToken (Token.ahead rest)).rank ≤
        (Precedence.ofToken operator.token).rank := hends.strength (Nat.le_of_lt hhigh)
    have htight (hneeded : decide (¬ .ofToken operator.token < right.strength) = false) :
        Precedence.ofToken operator.token < right.strength :=
      Decidable.not_not.1 (of_decide_eq_false hneeded)
    simp only [Expr.tokens, List.length_append, List.length_cons] at hfuel ⊢
    have hfuelLeft : 4 * (Token.around (left.strength < .ofToken operator.token)
        left.tokens).length ≤ fuel := by omega
    -- the left operand may be as tight as the operator, and ends before it
    obtain ⟨left', hfuel', heq⟩ := hleft.around (operator.token ::
      (Token.around (¬ .ofToken operator.token < right.strength) right.tokens ++ rest)) hfuelLeft
      hbound
      (fun hneeded _ => Nat.lt_of_lt_of_le hpass (Nat.le_of_not_lt (of_decide_eq_false hneeded)))
      (fun hneeded => ⟨operator.token_ne_elseWord, fun _ =>
        Nat.le_of_not_lt (of_decide_eq_false hneeded)⟩)
    obtain ⟨left', rfl⟩ := Nat.exists_eq_add_of_le' (show 1 ≤ left' by omega)
    -- the right operand is tighter than the operator, and what follows is not
    have hread : Reader.expression left' (.ofToken operator.token)
        (Token.around (¬ .ofToken operator.token < right.strength) right.tokens ++ rest) =
        .ok right rest :=
      hright.around_stop (by omega) (Nat.le_of_lt hhigh) (fun hneeded _ => htight hneeded)
      (fun hneeded => ⟨hends.word, fun _ => Nat.le_trans hstop (Nat.le_of_lt (htight hneeded))⟩)
      hstop
    refine ⟨left', by omega, ?_⟩
    rw [List.append_assoc, List.cons_append, heq]
    exact operators_binary hbinary hpass hread
  unnamed := rfl

theorem reads_call {callee : Expr} {arguments : List Expr} (hcallee : callee.ReadsBack)
    (harguments : ∀ e ∈ arguments, e.ReadsBack) : (Expr.call callee arguments).ReadsBack where
  starts := (hcallee.starts.around _).append _
  loose := Nat.succ_pos _
  expression {fuel bound rest} hfuel hbound _ _ := by
    have hpass : bound < .ofToken .leftParen := Nat.lt_succ_of_le hbound
    simp only [Expr.tokens, List.length_append, List.length_cons] at hfuel ⊢
    have hfuelCallee :
        4 * (Token.around (callee.strength < .call) callee.tokens).length ≤ fuel := by
      omega
    obtain ⟨left, hleft, heq⟩ := hcallee.around_postfix (t := .leftParen)
      (Expr.listTokens arguments ++ .rightParen :: rest) hfuelCallee hbound nofun
    have hread : Reader.elements left .rightParen
        (Expr.listTokens arguments ++ .rightParen :: rest) = .ok arguments rest :=
      elements_tokens rfl harguments (by omega)
    refine ⟨left, by omega, ?_⟩
    rw [List.append_assoc, List.cons_append, List.append_assoc, List.singleton_append, heq]
    exact operators_call hpass hread
  unnamed := rfl

theorem reads_index {collection key : Expr} (hcollection : collection.ReadsBack)
    (hkey : key.ReadsBack) : (Expr.index collection key).ReadsBack where
  starts := (hcollection.starts.around _).append _
  loose := Nat.succ_pos _
  expression {fuel bound rest} hfuel hbound _ _ := by
    have hpass : bound < .ofToken .leftBracket := Nat.lt_succ_of_le (Nat.le_succ_of_le hbound)
    simp only [Expr.tokens, List.length_append, List.length_cons] at hfuel ⊢
    have hfuelCollection :
        4 * (Token.around (collection.strength < .call) collection.tokens).length ≤ fuel := by omega
    obtain ⟨left, hleft, heq⟩ := hcollection.around_postfix (t := .leftBracket)
      (key.tokens ++ .rightBracket :: rest) hfuelCollection hbound nofun
    have hread : Reader.expression left .lowest (key.tokens ++ .rightBracket :: rest) =
        .ok key (.rightBracket :: rest) :=
      hkey.closed (by omega) (Token.closes_cons (by decide) rfl)
    refine ⟨left, by omega, ?_⟩
    rw [List.append_assoc, List.cons_append, List.append_assoc, List.singleton_append, heq]
    exact operators_index hpass hread
  unnamed := rfl

end Expr

/-! ## Statements -/

/-- An expression is a statement, which takes a semicolon behind it along. -/
theorem Reader.statement_eval {rest' : List Token} (h : e.ReadFrom ts)
    (hfuel : 4 * ts.length ≤ fuel) (hcloses : Token.Closes rest)
    (hskip : skipSemicolon rest = .ok () rest') :
    statement (fuel + 1) (ts ++ rest) = .ok (.eval e) rest' := by
  obtain ⟨t, us, rfl, ht⟩ := h.starts
  -- no expression starts with the word of another statement
  have hlet : Token.ahead (t :: us ++ rest) ≠ .letWord := ne_of_startsOperand ht rfl
  have hreturn : Token.ahead (t :: us ++ rest) ≠ .returnWord := ne_of_startsOperand ht rfl
  rw [statement_of_ne hlet hreturn, bind_of_ok (h.closed hfuel hcloses), bind_of_ok hskip]
  rfl

namespace Stmt

theorem reads_bind (h : e.Reads) (hname : e.isWritable (some name) = true) :
    (Stmt.bind name e).ReadsBack where
  starts := ⟨_, _, rfl, by decide, by decide⟩
  statement {fuel rest} hfuel := by
    simp only [Stmt.tokens, List.length_append, List.length_cons] at hfuel
    obtain ⟨fuel, rfl⟩ := Nat.exists_eq_add_of_le' (show 1 ≤ fuel by omega)
    have hread : expression fuel .lowest (e.tokens ++ .semicolon :: rest) =
        .ok e.anonymous (.semicolon :: rest) :=
      h.closed (by omega) (Token.closes_cons (by decide) rfl)
    simp only [Stmt.tokens, List.cons_append, List.append_assoc, List.nil_append]
    rw [statement, bind_of_ok (peek_eq _)]
    refine (bind_of_ok (take_cons ..)).trans ((bind_of_ok (take_cons ..)).trans ?_)
    refine (bind_of_ok (expect_cons ..)).trans ((bind_of_ok hread).trans ?_)
    refine (bind_of_ok (skipSemicolon_cons ..)).trans ?_
    rw [Expr.named_anonymous hname]
    rfl

theorem reads_ret (h : e.ReadsBack) : (Stmt.ret e).ReadsBack where
  starts := ⟨_, _, rfl, by decide, by decide⟩
  statement {fuel rest} hfuel := by
    simp only [Stmt.tokens, List.length_append, List.length_cons] at hfuel
    obtain ⟨fuel, rfl⟩ := Nat.exists_eq_add_of_le' (show 1 ≤ fuel by omega)
    have hread : expression fuel .lowest (e.tokens ++ .semicolon :: rest) =
        .ok e (.semicolon :: rest) := h.closed (by omega) (Token.closes_cons (by decide) rfl)
    simp only [Stmt.tokens, List.cons_append, List.append_assoc, List.nil_append]
    rw [statement, bind_of_ok (peek_eq _)]
    refine (bind_of_ok (take_cons ..)).trans ((bind_of_ok hread).trans ?_)
    exact bind_of_ok (skipSemicolon_cons ..)

theorem reads_eval (h : e.ReadsBack) : (Stmt.eval e).ReadsBack where
  starts := by
    obtain ⟨t, ts, htokens, ht⟩ := h.starts
    refine ⟨t, ts ++ [.semicolon], ?_, ne_of_startsOperand ht rfl, ne_of_startsOperand ht rfl⟩
    rw [Stmt.tokens, htokens, List.cons_append]
  statement {fuel rest} hfuel := by
    simp only [Stmt.tokens, List.length_append, List.length_cons] at hfuel
    obtain ⟨fuel, rfl⟩ := Nat.exists_eq_add_of_le' (show 1 ≤ fuel by omega)
    rw [Stmt.tokens, List.append_assoc, List.singleton_append]
    exact statement_eval h.readFrom (by omega) (Token.closes_cons (by decide) rfl)
      (skipSemicolon_cons rest)

end Stmt

/-! ## All programs -/

mutual

theorem Expr.reads : (e : Expr) → {name : Option String} → e.isWritable name = true → e.Reads
  | .identifier name, _, _ => (Expr.reads_identifier name).toReads
  | .integer value, _, _ => (Expr.reads_integer value).toReads
  | .boolean value, _, _ => (Expr.reads_boolean value).toReads
  | .string contents, _, _ => (Expr.reads_string contents).toReads
  | .array elements, _, h => (Expr.reads_array (Expr.list_reads elements h)).toReads
  | .hash pairs, _, h => (Expr.reads_hash (Expr.pairs_read pairs h)).toReads
  | .unary operator operand, _, h => by
    obtain ⟨hunary, hoperand⟩ := Bool.and_eq_true_iff.1 h
    exact (Expr.reads_unary hunary ⟨operand.reads hoperand, Expr.anonymous_eq hoperand⟩).toReads
  | .binary left operator right, _, h => by
    obtain ⟨h, hright⟩ := Bool.and_eq_true_iff.1 h
    obtain ⟨hbinary, hleft⟩ := Bool.and_eq_true_iff.1 h
    exact (Expr.reads_binary (by simpa using hbinary)
      ⟨left.reads hleft, Expr.anonymous_eq hleft⟩
      ⟨right.reads hright, Expr.anonymous_eq hright⟩).toReads
  | .conditional condition consequence alternative, _, h => by
    obtain ⟨hcondition, hconsequence, halternative⟩ := Expr.isWritable_conditional.1 h
    exact (Expr.reads_conditional ⟨condition.reads hcondition, Expr.anonymous_eq hcondition⟩
      (Program.all_read consequence hconsequence)
      (Expr.else_reads alternative halternative)).toReads
  | .function _ _ body, _, h =>
    Expr.reads_function (Program.all_read body (Bool.and_eq_true_iff.1 h).2)
  | .call callee arguments, _, h => by
    obtain ⟨hcallee, harguments⟩ := Bool.and_eq_true_iff.1 h
    exact (Expr.reads_call ⟨callee.reads hcallee, Expr.anonymous_eq hcallee⟩
      (Expr.list_reads arguments harguments)).toReads
  | .index collection key, _, h => by
    obtain ⟨hcollection, hkey⟩ := Bool.and_eq_true_iff.1 h
    exact (Expr.reads_index ⟨collection.reads hcollection, Expr.anonymous_eq hcollection⟩
      ⟨key.reads hkey, Expr.anonymous_eq hkey⟩).toReads

theorem Expr.else_reads : (alternative : Option Program) →
    (∀ block, alternative = some block → Program.isWritable block = true) →
    ∀ block, alternative = some block → ∀ s ∈ block, s.ReadsBack
  | none, _ => nofun
  | some block, h => by
    rintro _ ⟨⟩
    exact Program.all_read block (h block rfl)

theorem Expr.list_reads : (es : List Expr) → Expr.areWritable es = true → ∀ e ∈ es, e.ReadsBack
  | [], _ => nofun
  | e :: rest, h => by
    obtain ⟨he, hrest⟩ := Bool.and_eq_true_iff.1 h
    exact List.forall_mem_cons.2 ⟨⟨e.reads he, Expr.anonymous_eq he⟩, Expr.list_reads rest hrest⟩

theorem Expr.pairs_read : (pairs : List (Expr × Expr)) → Expr.pairsAreWritable pairs = true →
    ∀ p ∈ pairs, p.1.ReadsBack ∧ p.2.ReadsBack
  | [], _ => nofun
  | (key, value) :: rest, h => by
    obtain ⟨h, hrest⟩ := Bool.and_eq_true_iff.1 h
    obtain ⟨hkey, hvalue⟩ := Bool.and_eq_true_iff.1 h
    exact List.forall_mem_cons.2 ⟨⟨⟨key.reads hkey, Expr.anonymous_eq hkey⟩,
      ⟨value.reads hvalue, Expr.anonymous_eq hvalue⟩⟩, Expr.pairs_read rest hrest⟩

theorem Stmt.reads : (s : Stmt) → s.isWritable = true → s.ReadsBack
  | .bind _ value, h => Stmt.reads_bind (value.reads h) h
  | .ret value, h => Stmt.reads_ret ⟨value.reads h, Expr.anonymous_eq h⟩
  | .eval value, h => Stmt.reads_eval ⟨value.reads h, Expr.anonymous_eq h⟩

theorem Program.all_read : (body : Program) → Program.isWritable body = true →
    ∀ s ∈ body, s.ReadsBack
  | [], _ => nofun
  | s :: rest, h => by
    obtain ⟨hs, hrest⟩ := Bool.and_eq_true_iff.1 h
    exact List.forall_mem_cons.2 ⟨s.reads hs, Program.all_read rest hrest⟩

end

/-- Exactly the writable programs can be read.  What is read is writable, and a writable program is
read from the tokens that spell it, of which none is left. -/
theorem Program.reads_exactly_writable :
    (∀ tokens program rest, Program.ofTokens tokens = .ok program rest →
      Program.isWritable program = true) ∧
    ∀ program, Program.isWritable program = true →
      Program.ofTokens (Program.tokens program) = .ok program [] := by
  refine ⟨fun _ _ _ => Program.isWritable_of_ofTokens, fun program hprogram => ?_⟩
  exact programOnto_tokens (Program.all_read program hprogram) [] (by unfold allowance; omega)

/-- A function that is named by its `let`, and operands that need parentheses and ones that do
not. -/
def Program.mixed : Program :=
  [.bind "f" (.function (some "f") ["a"]
      [.eval (.unary .negate (.index (.binary (.identifier "a") .subtract (.integer 1))
        (.integer 0)))]),
    .eval (.binary (.call (.identifier "f") [.integer 2]) .lessThan
      (.binary (.binary (.integer 3) .subtract (.binary (.integer 4) .subtract (.integer 5)))
        .multiply
        (.conditional (.boolean true) [.eval (.integer 1)]
          (some [.eval (.hash [(.string "k", .identifier "f")])]))))]

/-- The program is also read from tokens with other parentheses and without semicolons. -/
theorem Program.mixed_reads :
    Program.isWritable Program.mixed = true ∧
      Program.ofTokens (Program.tokens Program.mixed) = .ok Program.mixed [] :=
  have hread : Program.ofTokens
      [.letWord, .identifier "f", .assign, .leftParen, .fnWord, .leftParen, .identifier "a",
        .rightParen, .leftBrace, .minus, .leftParen, .identifier "a", .minus, .integer 1,
        .rightParen, .leftBracket, .integer 0, .rightBracket, .rightBrace, .rightParen,
        .identifier "f", .leftParen, .integer 2, .rightParen, .lessThan, .leftParen, .leftParen,
        .integer 3, .minus, .leftParen, .integer 4, .minus, .integer 5, .rightParen, .rightParen,
        .asterisk, .ifWord, .leftParen, .trueWord, .rightParen, .leftBrace, .integer 1,
        .rightBrace, .elseWord, .leftBrace, .leftBrace, .string "k", .colon, .identifier "f",
        .rightBrace, .rightBrace, .rightParen] = .ok Program.mixed [] := by rfl
  ⟨Program.reads_exactly_writable.1 _ _ _ hread,
    Program.reads_exactly_writable.2 Program.mixed (by decide)⟩

end Scriptlet
