import Scriptlet.Proofs.Lexing
import Scriptlet.Proofs.Reading

/-!
# Reading goes forward

What is left of a text or of a list of tokens behind a reader is always an end of it.  Where a
reader comes to a result it has also taken something, unless it found the end of the file: a
character of a text (`Token.length_next_lt`), a token of a list (`Reader.Call.forward`).

The loops of the readers rely on this.  They do not look for the end of the tokens themselves:
behind it, the token ahead is the end of the file for ever, which no expression starts with and
which no reader asks for.
-/

namespace Scriptlet

/-! ## Characters -/

namespace Token

variable {t : Token} {ts : List Token} {cs rest : List Char}

theorem scanOnto_of_error {acc : List Token} {e : LexError} (h : next cs = (.error e, rest)) :
    scanOnto acc cs = .error e := by
  rw [scanOnto]
  split
  · next heq =>
    rw [h] at heq
    cases heq
    rfl
  · next heq =>
    rw [h] at heq
    cases heq

/-- Reading a text token by token comes to the end of the file or to an error, with no more tokens
before it than the text has characters, and this is what the text is read as. -/
theorem exists_outcomes (cs : List Char) :
    ∃ ts last, ts.length ≤ cs.length ∧ endOfFile ∉ ts ∧
      outcomes (ts.length + 1) cs = ts.map .ok ++ [last] ∧
      ((last = .ok endOfFile ∧ ∀ acc, scanOnto acc cs = .ok (acc.reverse ++ ts)) ∨
        ∃ e, last = .error e ∧ ∀ acc, scanOnto acc cs = .error e) := by
  cases hnext : next cs with
  | mk outcome rest =>
    have hfirst : (next cs).1 = outcome := by rw [hnext]
    cases outcome with
    | error e =>
      refine ⟨[], .error e, Nat.zero_le _, List.not_mem_nil, ?_,
        .inr ⟨e, rfl, fun acc => scanOnto_of_error hnext⟩⟩
      rw [← hfirst]
      rfl
    | ok t =>
      by_cases ht : t = endOfFile
      · subst ht
        refine ⟨[], .ok endOfFile, Nat.zero_le _, List.not_mem_nil, ?_, .inl ⟨rfl, fun acc => ?_⟩⟩
        · rw [← hfirst]
          rfl
        · rw [scanOnto_of_end hnext, List.append_nil]
      · have hlt : rest.length < cs.length := by
          have hlt := @length_next_lt cs (by simpa [hnext] using ht)
          rwa [hnext] at hlt
        obtain ⟨ts, last, hlength, hend, houtcomes, hscan⟩ := exists_outcomes rest
        refine ⟨t :: ts, last, Nat.succ_le_of_lt (Nat.lt_of_le_of_lt hlength hlt), ?_, ?_, ?_⟩
        · exact fun hmem => (List.mem_cons.1 hmem).elim (fun h => ht h.symm) hend
        · rw [List.length_cons, outcomes, hnext, houtcomes]
          rfl
        · refine hscan.imp (fun h => ⟨h.1, fun acc => ?_⟩) ?_
          · rw [scanOnto_of_next hnext ht, h.2, List.reverse_cons, ← List.append_cons]
          · rintro ⟨e, hlast, he⟩
            exact ⟨e, hlast, fun acc => (scanOnto_of_next hnext ht).trans (he _)⟩
termination_by cs.length

end Token

namespace Reader

/-! ## Calls of the readers -/

/-- A call of one of the readers that call each other. -/
inductive Call where
  | program (acc : List Stmt)
  | statement
  | statements (acc : List Stmt)
  | expression (bound : Precedence)
  | operand (first : Token)
  | operators (bound : Precedence) (left : Expr)
  | conditional
  | elements (close : Token)
  | more (acc : List Expr) (close : Token)
  | entries (acc : List (Expr × Expr))

namespace Call

/-- What a call makes. -/
def Result : Call → Type
  | program _ => Program
  | statement => Stmt
  | statements _ => List Stmt
  | expression _ | operand _ | operators _ _ | conditional => Expr
  | elements _ | more _ _ => List Expr
  | entries _ => List (Expr × Expr)

/-- The reader that a call is a call of. -/
def run (fuel : Nat) : (c : Call) → Reader c.Result
  | program acc => programOnto acc fuel
  | statement => Reader.statement fuel
  | statements acc => statementsOnto acc fuel
  | expression bound => Reader.expression fuel bound
  | operand first => Reader.operand fuel first
  | operators bound left => Reader.operators fuel bound left
  | conditional => Reader.conditional fuel
  | elements close => Reader.elements fuel close
  | more acc close => elementsOnto acc fuel close
  | entries acc => entriesOnto acc fuel

/-- The number of tokens that a call takes at least.  Only the end of the file can be found without
taking a token. -/
def cost : Call → Nat
  | program _ | operand _ | operators _ _ => 0
  | elements close => if close = .endOfFile then 0 else 1
  | statement | statements _ | expression _ | conditional | more _ _ | entries _ => 1

theorem run_zero (c : Call) : c.run 0 = throw .outOfAllowance := by
  cases c <;> rfl

end Call

/-! ## Going forward -/

variable {α β : Type} {m n fuel : Nat} {x y : Reader α} {f g : α → Reader β}
  {t wanted : Token} {ts us rest : List Token} {e : ParseError}

/-- Tokens behind at least one of others. -/
def Behind (us ts : List Token) : Prop := us <:+ ts ∧ us.length < ts.length

namespace Behind

theorem first : Behind ts (t :: ts) := ⟨List.suffix_cons _ _, Nat.lt_succ_self _⟩

theorem of_suffix (h : Behind us ts) (hrest : rest <:+ us) : Behind rest ts :=
  ⟨hrest.trans h.1, Nat.lt_of_le_of_lt hrest.length_le h.2⟩

theorem trans (hrest : Behind rest us) (h : Behind us ts) : Behind rest ts := h.of_suffix hrest.1

theorem cons (h : Behind us ts) : Behind us (t :: ts) := h.trans first

theorem next (h : Behind (t :: us) ts) : Behind us ts := h.of_suffix (List.suffix_cons _ _)

end Behind

/-- A reader leaves an end of the tokens before it, and where it comes to a result it has taken at
least `n` of them. -/
structure Forward (n : Nat) (x : Reader α) (tokens : List Token) : Prop where
  ok : ∀ {a rest}, x tokens = .ok a rest → rest <:+ tokens ∧ rest.length + n ≤ tokens.length
  error : ∀ {e rest}, x tokens = .error e rest → rest <:+ tokens

theorem forward_pure (a : α) : Forward 0 (pure a) ts where
  ok h := by
    cases h
    exact ⟨List.suffix_refl _, Nat.le_refl _⟩
  error h := by cases h

theorem forward_throw (e : ParseError) : Forward n (throw e : Reader α) ts where
  ok h := by cases h
  error h := by
    cases h
    exact List.suffix_refl _

theorem forward_peek : Forward 0 peek ts where
  ok h := by
    cases h
    exact ⟨List.suffix_refl _, Nat.le_refl _⟩
  error h := by cases h

theorem forward_take_cons : Forward 1 take (t :: ts) where
  ok h := by
    cases h
    exact ⟨List.suffix_cons _ _, Nat.le_refl _⟩
  error h := by cases h

theorem forward_take : Forward 0 take ts where
  ok h := by
    cases h
    exact ⟨List.tail_suffix _, List.tail_suffix _ |>.length_le⟩
  error h := by cases h

/-- The parts of a sequence go forward one behind the other. -/
theorem Forward.bind (hx : Forward m x ts)
    (hf : ∀ a us, x ts = .ok a us → Forward n (f a) us) : Forward (m + n) (x >>= f) ts where
  ok h := by
    obtain ⟨a, us, ha, hb⟩ := bind_eq_ok.1 h
    obtain ⟨hus, hm⟩ := hx.ok ha
    obtain ⟨hrest, hn⟩ := (hf a us ha).ok hb
    exact ⟨hrest.trans hus, by omega⟩
  error h := by
    obtain he | ⟨a, us, ha, he⟩ := bind_eq_error.1 h
    · exact hx.error he
    · exact ((hf a us ha).error he).trans (hx.ok ha).1

theorem Forward.weaken (h : Forward n x ts) (hm : m ≤ n) : Forward m x ts where
  ok hx := ⟨(h.ok hx).1, Nat.le_trans (Nat.add_le_add_left hm _) (h.ok hx).2⟩
  error := h.error

/-- What the first part takes, the sequence takes. -/
theorem Forward.first (hx : Forward n x ts)
    (hf : ∀ a us, x ts = .ok a us → Forward 0 (f a) us) : Forward n (x >>= f) ts := hx.bind hf

/-- What is taken behind the first part, the sequence takes. -/
theorem Forward.after (hx : Forward m x ts)
    (hf : ∀ a us, x ts = .ok a us → Forward n (f a) us) : Forward n (x >>= f) ts :=
  (hx.bind hf).weaken (Nat.le_add_left _ _)

/-- A reader that looks ahead decides by the token that is there. -/
theorem Forward.peek {f : Token → Reader β} (h : Forward n (f (Token.ahead ts)) ts) :
    Forward n (Reader.peek >>= f) ts :=
  .after forward_peek fun _ _ hpeek => by
    cases hpeek
    exact h

theorem Forward.ite {p : Prop} [Decidable p] (hx : p → Forward n x ts) (hy : ¬ p → Forward n y ts) :
    Forward n (if p then x else y) ts := by
  split
  · next h => exact hx h
  · next h => exact hy h

theorem forward_expect (h : wanted ≠ .endOfFile) : Forward 1 (expect wanted) ts := by
  cases ts with
  | nil =>
    refine .after forward_take fun found us hfound => ?_
    cases hfound
    split
    · next heq => exact absurd heq.symm h
    · exact forward_throw _
  | cons t ts =>
    refine .first forward_take_cons fun found us _ => ?_
    split
    · exact forward_pure ()
    · exact forward_throw _

theorem forward_skipSemicolon : Forward 0 skipSemicolon ts := by
  refine .peek ?_
  split
  · exact .first forward_take fun _ _ _ => forward_pure _
  · exact forward_pure ()

theorem forward_of_ok {a : α} (h : x ts = .ok a us) (hus : us <:+ ts)
    (hlength : us.length + n ≤ ts.length) : Forward n x ts where
  ok hx := by
    rw [h] at hx
    cases hx
    exact ⟨hus, hlength⟩
  error hx := by
    rw [h] at hx
    cases hx

theorem forward_of_error (h : x ts = .error e us) (hus : us <:+ ts) : Forward n x ts where
  ok hx := by
    rw [h] at hx
    cases hx
  error hx := by
    rw [h] at hx
    cases hx
    exact hus

theorem forward_parametersOnto (acc : List String) (ts : List Token) :
    Forward 1 (parametersOnto acc) ts := by
  induction acc, ts using parametersOnto.induct with
  | case1 acc name rest ih =>
    have heq : parametersOnto acc (.identifier name :: .comma :: rest) =
        parametersOnto (name :: acc) rest := by rw [parametersOnto]
    have htwo := List.suffix_append [.identifier name, .comma] rest
    refine ⟨fun h => ?_, fun h => (ih.error (heq ▸ h)).trans htwo⟩
    obtain ⟨hus, hlength⟩ := ih.ok (heq ▸ h)
    exact ⟨hus.trans htwo, Nat.le_trans hlength htwo.length_le⟩
  | case2 acc name rest =>
    exact forward_of_ok (by rw [parametersOnto]) (List.suffix_append [_, _] _) (Nat.le_succ _)
  | case3 acc name found rest h h' =>
    exact forward_of_error (by rw [parametersOnto] <;> assumption) (List.suffix_append [_, _] _)
  | case4 acc name => exact forward_of_error (by rw [parametersOnto]) List.nil_suffix
  | case5 acc found rest h =>
    exact forward_of_error (by rw [parametersOnto] <;> assumption) (List.suffix_cons _ _)
  | case6 acc => exact forward_of_error (by rw [parametersOnto]) List.nil_suffix

theorem forward_parameters : Forward 1 parameters ts := by
  refine .peek (.ite (fun h => ?_) fun _ => forward_parametersOnto [] ts)
  obtain ⟨us, rfl⟩ := Token.eq_cons_of_ahead h (by decide)
  exact .first forward_take_cons fun _ _ _ => forward_pure _

/-- No operand starts with the end of the file. -/
theorem operand_endOfFile (fuel : Nat) : ∃ e, operand fuel .endOfFile = throw e := by
  cases fuel with
  | zero => exact ⟨_, rfl⟩
  | succ fuel => exact ⟨_, rfl⟩

/-! ## All readers go forward -/

section Forward

variable (h : ∀ (c : Call) ts, Forward c.cost (c.run fuel) ts)

include h

theorem forward_program (acc : List Stmt) : Forward 0 (programOnto acc (fuel + 1)) ts := by
  refine .peek ?_
  split
  · exact forward_pure _
  · exact .after (h .statement ts) fun s us _ => h (.program (s :: acc)) us

theorem forward_statement : Forward 1 (statement (fuel + 1)) ts := by
  unfold statement
  refine .peek ?_
  split
  · refine .after forward_take fun _ us _ => .after forward_take fun _ us _ => ?_
    split
    · refine .first (forward_expect (by decide)) fun _ us _ => ?_
      refine .after (h (.expression .lowest) us) fun _ us _ => ?_
      exact .after forward_skipSemicolon fun _ _ _ => forward_pure _
    · exact forward_throw _
  · refine .after forward_take fun _ us _ => .first (h (.expression .lowest) us) fun _ us _ => ?_
    exact .after forward_skipSemicolon fun _ _ _ => forward_pure _
  · refine .first (h (.expression .lowest) ts) fun _ us _ => ?_
    exact .after forward_skipSemicolon fun _ _ _ => forward_pure _

theorem forward_statements (acc : List Stmt) : Forward 1 (statementsOnto acc (fuel + 1)) ts := by
  unfold statementsOnto
  refine .peek ?_
  split
  · next hahead =>
    obtain ⟨us, rfl⟩ := Token.eq_cons_of_ahead hahead (by decide)
    exact .first forward_take_cons fun _ _ _ => forward_pure _
  · exact forward_throw _
  · exact .after (h .statement ts) fun s us _ => h (.statements (s :: acc)) us

theorem forward_expression (bound : Precedence) :
    Forward 1 (Reader.expression (fuel + 1) bound) ts := by
  unfold Reader.expression
  cases ts with
  | nil =>
    obtain ⟨e, he⟩ := operand_endOfFile fuel
    refine .after forward_take fun first us hfirst => ?_
    cases hfirst
    rw [show List.headD [] Token.endOfFile = .endOfFile from rfl, he]
    exact .first (forward_throw e) fun a us ha => by cases ha
  | cons t ts =>
    refine .first forward_take_cons fun first us _ => ?_
    exact .after (h (.operand first) us) fun left us _ => h (.operators bound left) us

theorem forward_operand (first : Token) : Forward 0 (Reader.operand (fuel + 1) first) ts := by
  cases first with
  | identifier name => exact forward_pure _
  | integer value => exact forward_pure _
  | string contents => exact forward_pure _
  | trueWord => exact forward_pure _
  | falseWord => exact forward_pure _
  | bang => exact .after (h (.expression .unary) ts) fun _ _ _ => forward_pure _
  | minus => exact .after (h (.expression .unary) ts) fun _ _ _ => forward_pure _
  | leftParen =>
    refine .after (h (.expression .lowest) ts) fun _ us _ => ?_
    exact .after (forward_expect (by decide)) fun _ _ _ => forward_pure _
  | ifWord => exact (h .conditional ts).weaken (Nat.zero_le _)
  | fnWord =>
    refine .after (forward_expect (by decide)) fun _ us _ => ?_
    refine .after forward_parameters fun _ us _ => ?_
    refine .after (forward_expect (by decide)) fun _ us _ => ?_
    exact .after (h (.statements []) us) fun _ _ _ => forward_pure _
  | leftBracket => exact .after (h (.elements .rightBracket) ts) fun _ _ _ => forward_pure _
  | leftBrace => exact .after (h (.entries []) ts) fun _ _ _ => forward_pure _
  | _ => exact forward_throw _

theorem forward_operators (bound : Precedence) (left : Expr) :
    Forward 0 (Reader.operators (fuel + 1) bound left) ts := by
  unfold Reader.operators
  refine .peek ?_
  split
  · refine .after forward_take fun _ us _ => ?_
    split
    · exact .after (h (.elements .rightParen) us) fun _ us _ => h (.operators bound _) us
    · refine .after (h (.expression .lowest) us) fun _ us _ => ?_
      exact .after (forward_expect (by decide)) fun _ us _ => h (.operators bound _) us
    · split
      · exact .after (h (.expression _) us) fun _ us _ => h (.operators bound _) us
      · exact forward_throw _
  · exact forward_pure _

theorem forward_conditional : Forward 1 (Reader.conditional (fuel + 1)) ts := by
  unfold Reader.conditional
  refine .first (forward_expect (by decide)) fun _ us _ => ?_
  refine .after (h (.expression .lowest) us) fun _ us _ => ?_
  refine .after (forward_expect (by decide)) fun _ us _ => ?_
  refine .after (forward_expect (by decide)) fun _ us _ => ?_
  refine .after (h (.statements []) us) fun _ us _ => .peek ?_
  split
  · refine .after forward_take fun _ us _ => .peek ?_
    split
    · refine .after forward_take fun _ us _ => .after (h .conditional us) fun _ us _ => ?_
      exact forward_pure _
    · refine .after (forward_expect (by decide)) fun _ us _ => ?_
      exact .after (h (.statements []) us) fun _ us _ => forward_pure _
  · exact forward_pure _

theorem forward_elements (close : Token) :
    Forward (Call.elements close).cost (Reader.elements (fuel + 1) close) ts := by
  unfold Reader.elements
  refine .peek ?_
  split
  · next hahead =>
    by_cases hclose : close = .endOfFile
    · rw [Call.cost, if_pos hclose]
      exact .after forward_take fun _ _ _ => forward_pure _
    · obtain ⟨us, rfl⟩ := Token.eq_cons_of_ahead hahead hclose
      rw [Call.cost, if_neg hclose]
      exact .first forward_take_cons fun _ _ _ => forward_pure _
  · refine (h (.more [] close) ts).weaken ?_
    show ite _ _ _ ≤ 1
    split <;> decide

theorem forward_more (acc : List Expr) (close : Token) :
    Forward 1 (elementsOnto acc (fuel + 1) close) ts := by
  unfold elementsOnto
  refine .first (h (.expression .lowest) ts) fun e us _ => .after forward_take fun _ us _ => ?_
  split
  · exact (h (.more (e :: acc) close) us).weaken (Nat.zero_le _)
  · split
    · exact forward_pure _
    · exact forward_throw _

theorem forward_entries (acc : List (Expr × Expr)) : Forward 1 (entriesOnto acc (fuel + 1)) ts := by
  unfold entriesOnto
  refine .peek ?_
  split
  · next hahead =>
    obtain ⟨us, rfl⟩ := Token.eq_cons_of_ahead hahead (by decide)
    exact .first forward_take_cons fun _ _ _ => forward_pure _
  · refine .after (h (.expression .lowest) ts) fun _ us _ => ?_
    refine .after (forward_expect (by decide)) fun _ us _ => ?_
    refine .after (h (.expression .lowest) us) fun _ us _ => .peek ?_
    split
    · exact .after forward_take fun _ us _ => h (.entries _) us
    · exact h (.entries _) us
    · exact forward_throw _

end Forward

theorem Call.forward (c : Call) (fuel : Nat) (ts : List Token) :
    Forward c.cost (c.run fuel) ts := by
  induction fuel generalizing c ts with
  | zero =>
    rw [run_zero]
    exact forward_throw _
  | succ fuel ih =>
    cases c with
    | program acc => exact forward_program ih acc
    | statement => exact forward_statement ih
    | statements acc => exact forward_statements ih acc
    | expression bound => exact forward_expression ih bound
    | operand first => exact forward_operand ih first
    | operators bound left => exact forward_operators ih bound left
    | conditional => exact forward_conditional ih
    | elements close => exact forward_elements ih close
    | more acc close => exact forward_more ih acc close
    | entries acc => exact forward_entries ih acc

end Reader

end Scriptlet
