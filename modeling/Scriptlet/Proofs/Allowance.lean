import Scriptlet.Proofs.Progress

/-!
# Reading comes to an end

The readers take an allowance that every call lowers by one.  `Reader.Call.Part` lists what a call
calls in turn, and `Reader.Call.need` says which allowance is enough for a call before certain
tokens.  Every part needs less than the whole (`Reader.Call.Part.less`), because it is behind a
token that the whole has taken, or else of a lower rank.  So no call that is made in reading a
program runs out of its allowance (`Reader.Call.lasts`), and a larger one changes nothing
(`Reader.Call.settled`).
-/

namespace Scriptlet

namespace Reader

/-! ## The parts of a call -/

namespace Call

/-- The calls that a call with one more allowance than `fuel` makes in turn, each with the tokens
that are unread there.  A call that comes behind others is only made if those come to a result. -/
inductive Part (fuel : Nat) : Call → List Token → Call → List Token → Prop
  | statement {acc ts} (hend : Token.ahead ts ≠ .endOfFile) :
      Part fuel (program acc) ts statement ts
  | program {acc ts s us} (hend : Token.ahead ts ≠ .endOfFile)
      (hs : Reader.statement fuel ts = .ok s us) :
      Part fuel (program acc) ts (program (s :: acc)) us
  | bind {name ts} :
    Part fuel statement (.letWord :: .identifier name :: .assign :: ts) (expression .lowest) ts
  | ret {ts} : Part fuel statement (.returnWord :: ts) (expression .lowest) ts
  | eval {ts} (hlet : Token.ahead ts ≠ .letWord) (hreturn : Token.ahead ts ≠ .returnWord) :
    Part fuel statement ts (expression .lowest) ts
  | first {acc ts} (hbrace : Token.ahead ts ≠ .rightBrace) (hend : Token.ahead ts ≠ .endOfFile) :
    Part fuel (statements acc) ts statement ts
  | others {acc ts s us} (hbrace : Token.ahead ts ≠ .rightBrace)
      (hend : Token.ahead ts ≠ .endOfFile) (hs : Reader.statement fuel ts = .ok s us) :
    Part fuel (statements acc) ts (statements (s :: acc)) us
  | operand {bound ts} : Part fuel (expression bound) ts (operand (Token.ahead ts)) ts.tail
  | operators {bound left ts us}
      (hleft : Reader.operand fuel (Token.ahead ts) ts.tail = .ok left us) :
    Part fuel (expression bound) ts (operators bound left) us
  | unary {first ts} (hfirst : first = .bang ∨ first = .minus) :
    Part fuel (operand first) ts (expression .unary) ts
  | inside {ts} : Part fuel (operand .leftParen) ts (expression .lowest) ts
  | conditional {ts} : Part fuel (operand .ifWord) ts conditional ts
  | body {names ts us} (hnames : parameters ts = .ok names (.leftBrace :: us)) :
    Part fuel (operand .fnWord) (.leftParen :: ts) (statements []) us
  | array {ts} : Part fuel (operand .leftBracket) ts (elements .rightBracket) ts
  | hash {ts} : Part fuel (operand .leftBrace) ts (entries []) ts
  | arguments {bound left ts} (hbound : bound < .ofToken .leftParen) :
    Part fuel (operators bound left) (.leftParen :: ts) (elements .rightParen) ts
  | behindCall {bound left arguments ts us} (hbound : bound < .ofToken .leftParen)
      (harguments : Reader.elements fuel .rightParen ts = .ok arguments us) :
    Part fuel (operators bound left) (.leftParen :: ts) (operators bound (.call left arguments)) us
  | key {bound left ts} (hbound : bound < .ofToken .leftBracket) :
    Part fuel (operators bound left) (.leftBracket :: ts) (expression .lowest) ts
  | behindIndex {bound left key ts us} (hbound : bound < .ofToken .leftBracket)
      (hkey : Reader.expression fuel .lowest ts = .ok key (.rightBracket :: us)) :
    Part fuel (operators bound left) (.leftBracket :: ts) (operators bound (.index left key)) us
  | right {bound left t operator ts} (hbound : bound < .ofToken t)
      (hoperator : Operator.ofToken? t = some operator) :
    Part fuel (operators bound left) (t :: ts) (expression (.ofToken t)) ts
  | behindRight {bound left t operator right ts us} (hbound : bound < .ofToken t)
      (hoperator : Operator.ofToken? t = some operator)
      (hright : Reader.expression fuel (.ofToken t) ts = .ok right us) :
    Part fuel (operators bound left) (t :: ts) (operators bound (.binary left operator right)) us
  | condition {ts} : Part fuel conditional (.leftParen :: ts) (expression .lowest) ts
  | consequence {condition ts us}
      (hcondition : Reader.expression fuel .lowest ts =
        .ok condition (.rightParen :: .leftBrace :: us)) :
    Part fuel conditional (.leftParen :: ts) (statements []) us
  | elseIf {condition consequence ts us vs}
      (hcondition : Reader.expression fuel .lowest ts =
        .ok condition (.rightParen :: .leftBrace :: us))
      (hthen : statementsOnto [] fuel us = .ok consequence (.elseWord :: .ifWord :: vs)) :
    Part fuel conditional (.leftParen :: ts) conditional vs
  | alternative {condition consequence ts us vs}
      (hcondition : Reader.expression fuel .lowest ts =
        .ok condition (.rightParen :: .leftBrace :: us))
      (hthen : statementsOnto [] fuel us = .ok consequence (.elseWord :: .leftBrace :: vs)) :
    Part fuel conditional (.leftParen :: ts) (statements []) vs
  | list {close ts} (hclose : Token.ahead ts ≠ close) :
    Part fuel (elements close) ts (more [] close) ts
  | element {acc close ts} : Part fuel (more acc close) ts (expression .lowest) ts
  | more {acc close e ts us} (he : Reader.expression fuel .lowest ts = .ok e (.comma :: us)) :
    Part fuel (more acc close) ts (more (e :: acc) close) us
  | entry {acc ts} (hbrace : Token.ahead ts ≠ .rightBrace) :
    Part fuel (entries acc) ts (expression .lowest) ts
  | value {acc key ts us} (hbrace : Token.ahead ts ≠ .rightBrace)
      (hkey : Reader.expression fuel .lowest ts = .ok key (.colon :: us)) :
    Part fuel (entries acc) ts (expression .lowest) us
  | entries {acc key value ts us vs} (hbrace : Token.ahead ts ≠ .rightBrace)
      (hkey : Reader.expression fuel .lowest ts = .ok key (.colon :: us))
      (hvalue : Reader.expression fuel .lowest us = .ok value (.comma :: vs)) :
    Part fuel (entries acc) ts (entries ((key, value) :: acc)) vs
  | close {acc key value ts us vs} (hbrace : Token.ahead ts ≠ .rightBrace)
      (hkey : Reader.expression fuel .lowest ts = .ok key (.colon :: us))
      (hvalue : Reader.expression fuel .lowest us = .ok value vs)
      (hend : Token.ahead vs = .rightBrace) :
    Part fuel (entries acc) ts (entries ((key, value) :: acc)) vs

/-- The calls that are made in the course of a call with an allowance, each with its own allowance
and the tokens that are unread there. -/
inductive Visits (fuel : Nat) (c : Call) (ts : List Token) : Nat → Call → List Token → Prop
  | here : Visits fuel c ts fuel c ts
  | part {n d e us vs} (h : Visits fuel c ts (n + 1) d us) (hpart : Part n d us e vs) :
    Visits fuel c ts n e vs

end Call

variable {α β : Type} {m n fuel : Nat} {x y : Reader α} {f g : α → Reader β}
  {t wanted : Token} {ts us rest : List Token} {e : ParseError}

/-! ## What the parts need -/

/-- Reading does not use up its allowance. -/
def Lasts (x : Reader α) (tokens : List Token) : Prop :=
  ∀ rest, x tokens ≠ .error .outOfAllowance rest

theorem lasts_pure (a : α) : Lasts (pure a) ts := nofun

theorem lasts_throw (h : e ≠ .outOfAllowance) : Lasts (throw e : Reader α) ts := by
  rintro rest heq
  cases heq
  exact h rfl

theorem Lasts.bind (hx : Lasts x ts) (hf : ∀ a us, x ts = .ok a us → Lasts (f a) us) :
    Lasts (x >>= f) ts := by
  intro rest heq
  obtain he | ⟨a, us, ha, he⟩ := bind_eq_error.1 heq
  · exact hx rest he
  · exact hf a us ha rest he

theorem Lasts.peek {f : Token → Reader β} (h : Lasts (f (Token.ahead ts)) ts) :
    Lasts (Reader.peek >>= f) ts := h

theorem Lasts.ite {p : Prop} [Decidable p] (hx : Lasts x ts) (hy : Lasts y ts) :
    Lasts (if p then x else y) ts := by
  split
  · exact hx
  · exact hy

theorem Lasts.take {f : Token → Reader β} (h : Lasts (f (Token.ahead ts)) ts.tail) :
    Lasts (Reader.take >>= f) ts := h

theorem expect_eq_ok {a : Unit} (h : expect wanted ts = .ok a us) (hwanted : wanted ≠ .endOfFile) :
    ts = wanted :: us := by
  have h : (if Token.ahead ts = wanted then pure ()
      else throw (.expected wanted (Token.ahead ts)) : Reader Unit) ts.tail = .ok a us := h
  split at h
  · next heq =>
    obtain ⟨vs, rfl⟩ := Token.eq_cons_of_ahead heq hwanted
    cases h
    rfl
  · cases h

theorem lasts_expect : Lasts (expect wanted) ts := by
  refine .take ?_
  split
  · exact lasts_pure ()
  · exact lasts_throw (by rintro ⟨⟩)

theorem Lasts.expect {f : Unit → Reader β} (hwanted : wanted ≠ .endOfFile)
    (hf : ∀ us, ts = wanted :: us → Lasts (f ()) us) : Lasts (Reader.expect wanted >>= f) ts :=
  lasts_expect.bind fun _ us h => hf us (expect_eq_ok h hwanted)

theorem lasts_skipSemicolon : Lasts skipSemicolon ts := by
  refine .peek ?_
  split
  · exact .take (lasts_pure ())
  · exact lasts_pure ()

theorem lasts_parametersOnto (acc : List String) (ts : List Token) :
    Lasts (parametersOnto acc) ts := by
  intro rest
  fun_induction parametersOnto acc ts with
  | case1 acc name us ih => exact ih
  | _ => nofun

theorem lasts_parameters : Lasts parameters ts :=
  .peek (.ite (.take (lasts_pure _)) (lasts_parametersOnto [] ts))

namespace Call

variable {c d : Call}

theorem lasts_program {acc : List Stmt}
    (h : ∀ {d us}, Part fuel (program acc) ts d us → Lasts (d.run fuel) us) :
    Lasts (programOnto acc (fuel + 1)) ts := by
  refine .peek ?_
  split
  · exact lasts_pure _
  · next hend => exact (h (.statement hend)).bind fun s us hs => h (.program hend hs)

theorem lasts_statement (h : ∀ {d us}, Part fuel statement ts d us → Lasts (d.run fuel) us) :
    Lasts (Reader.statement (fuel + 1)) ts := by
  unfold Reader.statement
  refine .peek ?_
  split
  · next hlet =>
    obtain ⟨us, rfl⟩ := Token.eq_cons_of_ahead hlet (by decide)
    refine .take (.take ?_)
    split
    · next name hname =>
      obtain ⟨vs, rfl : us = .identifier name :: vs⟩ := Token.eq_cons_of_ahead hname (by rintro ⟨⟩)
      refine .expect (by decide) fun ws hws => ?_
      obtain rfl : vs = .assign :: ws := hws
      exact (h .bind).bind fun _ _ _ => lasts_skipSemicolon.bind fun _ _ _ => lasts_pure _
    · exact lasts_throw (by rintro ⟨⟩)
  · next hreturn =>
    obtain ⟨us, rfl⟩ := Token.eq_cons_of_ahead hreturn (by decide)
    exact .take ((h .ret).bind fun _ _ _ => lasts_skipSemicolon.bind fun _ _ _ => lasts_pure _)
  · next hlet hreturn =>
    refine (h (.eval hlet hreturn)).bind fun _ _ _ => ?_
    exact lasts_skipSemicolon.bind fun _ _ _ => lasts_pure _

theorem lasts_statements {acc : List Stmt}
    (h : ∀ {d us}, Part fuel (statements acc) ts d us → Lasts (d.run fuel) us) :
    Lasts (statementsOnto acc (fuel + 1)) ts := by
  unfold statementsOnto
  refine .peek ?_
  split
  · exact .take (lasts_pure _)
  · exact lasts_throw (by rintro ⟨⟩)
  · next hbrace hend =>
    exact (h (.first hbrace hend)).bind fun s us hs => h (.others hbrace hend hs)

theorem lasts_expression {bound : Precedence}
    (h : ∀ {d us}, Part fuel (expression bound) ts d us → Lasts (d.run fuel) us) :
    Lasts (Reader.expression (fuel + 1) bound) ts := by
  unfold Reader.expression
  exact .take ((h .operand).bind fun left us hleft => h (.operators hleft))

theorem lasts_operand {first : Token}
    (h : ∀ {d us}, Part fuel (operand first) ts d us → Lasts (d.run fuel) us) :
    Lasts (Reader.operand (fuel + 1) first) ts := by
  cases first with
  | identifier name => exact lasts_pure _
  | integer value => exact lasts_pure _
  | string contents => exact lasts_pure _
  | trueWord => exact lasts_pure _
  | falseWord => exact lasts_pure _
  | bang => exact (h (.unary (.inl rfl))).bind fun _ _ _ => lasts_pure _
  | minus => exact (h (.unary (.inr rfl))).bind fun _ _ _ => lasts_pure _
  | leftParen =>
    exact (h .inside).bind fun _ _ _ => lasts_expect.bind fun _ _ _ => lasts_pure _
  | ifWord => exact h .conditional
  | fnWord =>
    refine .expect (by decide) fun us hus => ?_
    subst hus
    refine lasts_parameters.bind fun names vs hnames => .expect (by decide) fun ws hws => ?_
    subst hws
    exact (h (.body hnames)).bind fun _ _ _ => lasts_pure _
  | leftBracket => exact (h .array).bind fun _ _ _ => lasts_pure _
  | leftBrace => exact (h .hash).bind fun _ _ _ => lasts_pure _
  | _ => exact lasts_throw (by rintro ⟨⟩)

theorem lasts_operators {bound : Precedence} {left : Expr}
    (h : ∀ {d us}, Part fuel (operators bound left) ts d us → Lasts (d.run fuel) us) :
    Lasts (Reader.operators (fuel + 1) bound left) ts := by
  unfold Reader.operators
  refine .peek ?_
  split
  · next hbound =>
    -- the end of the file binds to nothing
    have hend : Token.ahead ts ≠ .endOfFile := by
      intro heq
      rw [heq] at hbound
      exact Nat.not_lt_zero _ hbound
    obtain ⟨us, hts⟩ := Token.eq_cons_of_ahead rfl hend
    generalize Token.ahead ts = t at hts hbound
    subst hts
    refine .take ?_
    split
    · exact (h (.arguments hbound)).bind fun _ _ ha => h (.behindCall hbound ha)
    · refine (h (.key hbound)).bind fun key vs hkey => .expect (by decide) fun ws hws => ?_
      subst hws
      exact h (.behindIndex hbound hkey)
    · split
      · next operator hoperator =>
        exact (h (.right hbound hoperator)).bind fun _ _ hr => h (.behindRight hbound hoperator hr)
      · exact lasts_throw (by rintro ⟨⟩)
  · exact lasts_pure _

theorem lasts_conditional (h : ∀ {d us}, Part fuel conditional ts d us → Lasts (d.run fuel) us) :
    Lasts (Reader.conditional (fuel + 1)) ts := by
  unfold Reader.conditional
  refine .expect (by decide) fun us hus => ?_
  subst hus
  refine (h .condition).bind fun condition vs hc => .expect (by decide) fun ws hws => ?_
  subst hws
  refine .expect (by decide) fun us hus => ?_
  subst hus
  refine (h (.consequence hc)).bind fun consequence vs hthen => .peek ?_
  split
  · next helse =>
    obtain ⟨ws, rfl⟩ := Token.eq_cons_of_ahead helse (by decide)
    refine .take (.peek ?_)
    split
    · next hif =>
      obtain ⟨us, rfl : ws = .ifWord :: us⟩ := Token.eq_cons_of_ahead hif (by decide)
      exact .take ((h (.elseIf hc hthen)).bind fun _ _ _ => lasts_pure _)
    · refine .expect (by decide) fun us hus => ?_
      obtain rfl : ws = .leftBrace :: us := hus
      exact (h (.alternative hc hthen)).bind fun _ _ _ => lasts_pure _
  · exact lasts_pure _

theorem lasts_elements {close : Token}
    (h : ∀ {d us}, Part fuel (elements close) ts d us → Lasts (d.run fuel) us) :
    Lasts (Reader.elements (fuel + 1) close) ts := by
  unfold Reader.elements
  refine .peek ?_
  split
  · exact .take (lasts_pure _)
  · next hclose => exact h (.list hclose)

theorem lasts_more {acc : List Expr} {close : Token}
    (h : ∀ {d us}, Part fuel (more acc close) ts d us → Lasts (d.run fuel) us) :
    Lasts (elementsOnto acc (fuel + 1) close) ts := by
  unfold elementsOnto
  refine (h .element).bind fun e us he => .take ?_
  split
  · next hcomma =>
    obtain ⟨vs, rfl⟩ := Token.eq_cons_of_ahead hcomma (by decide)
    exact h (.more he)
  · split
    · exact lasts_pure _
    · exact lasts_throw (by rintro ⟨⟩)

theorem lasts_entries {acc : List (Expr × Expr)}
    (h : ∀ {d us}, Part fuel (entries acc) ts d us → Lasts (d.run fuel) us) :
    Lasts (entriesOnto acc (fuel + 1)) ts := by
  unfold entriesOnto
  refine .peek ?_
  split
  · exact .take (lasts_pure _)
  · next hbrace =>
    refine (h (.entry hbrace)).bind fun key us hkey => .expect (by decide) fun vs hvs => ?_
    subst hvs
    refine (h (.value hbrace hkey)).bind fun value us hvalue => .peek ?_
    split
    · next hcomma =>
      obtain ⟨ws, rfl⟩ := Token.eq_cons_of_ahead hcomma (by decide)
      exact .take (h (.entries hbrace hkey hvalue))
    · next hend => exact h (.close hbrace hkey hvalue hend)
    · exact lasts_throw (by rintro ⟨⟩)

/-- The parts are all that a call spends its allowance on. -/
theorem lasts_of_parts (h : ∀ {d us}, Part fuel c ts d us → Lasts (d.run fuel) us) :
    Lasts (c.run (fuel + 1)) ts := by
  cases c with
  | program acc => exact lasts_program h
  | statement => exact lasts_statement h
  | statements acc => exact lasts_statements h
  | expression bound => exact lasts_expression h
  | operand first => exact lasts_operand h
  | operators bound left => exact lasts_operators h
  | conditional => exact lasts_conditional h
  | elements close => exact lasts_elements h
  | more acc close => exact lasts_more h
  | entries acc => exact lasts_entries h

/-- The allowance that a call needs beyond that for the tokens before it. -/
def rank : Call → Nat
  | operators _ _ => 1
  | expression _ => 2
  | statement | conditional | more _ _ | entries _ => 3
  | program _ | statements _ | elements _ => 4
  | operand _ => 5

/-- No operand starts with the end of the file, so such a call fails at once. -/
def isRefused : Call → Bool
  | operand .endOfFile => true
  | _ => false

/-- An allowance that a call before the tokens does not use up. -/
def need (c : Call) (ts : List Token) : Nat :=
  if c.isRefused then 1 else 4 * ts.length + c.rank

theorem need_eq (h : c.isRefused = false) : c.need ts = 4 * ts.length + c.rank := by
  rw [need, h]
  rfl

theorem rank_pos (c : Call) : 0 < c.rank := by
  cases c <;> exact Nat.succ_pos _

theorem need_pos (c : Call) (ts : List Token) : 0 < c.need ts := by
  have hpos := c.rank_pos
  unfold need
  split <;> omega

theorem need_le (c : Call) (ts : List Token) : c.need ts ≤ 4 * ts.length + c.rank := by
  have hpos := c.rank_pos
  unfold need
  split <;> omega

/-- Before the same tokens, the rank decides. -/
theorem less_of_rank (h : d.rank < c.rank) (hc : c.isRefused = false) :
    ts <:+ ts ∧ d.need ts < c.need ts := by
  have hd := d.need_le ts
  rw [need_eq hc]
  exact ⟨List.suffix_refl _, by omega⟩

/-- Once a token is taken, every call but an operand needs less than any call before. -/
theorem less_of_behind (h : Behind us ts) (hrank : d.rank < 5) (hc : c.isRefused = false) :
    us <:+ ts ∧ d.need us < c.need ts := by
  have hpos := c.rank_pos
  have hd := d.need_le us
  have hlength := h.2
  rw [need_eq hc]
  exact ⟨h.1, by omega⟩

theorem behind_of_statement {s : Stmt} (h : Reader.statement fuel ts = .ok s us) : Behind us ts :=
  (Call.forward .statement fuel ts).ok h

theorem behind_of_statements {acc body : List Stmt} (h : statementsOnto acc fuel ts = .ok body us) :
    Behind us ts := (Call.forward (.statements acc) fuel ts).ok h

theorem behind_of_expression {bound : Precedence} {e : Expr}
    (h : Reader.expression fuel bound ts = .ok e us) : Behind us ts :=
  (Call.forward (.expression bound) fuel ts).ok h

/-- What a part has left to read is an end of what the whole has, and it needs less. -/
theorem Part.less (h : Part fuel c ts d us) : us <:+ ts ∧ d.need us < c.need ts := by
  cases h with
  | statement => exact less_of_rank (by decide : 3 < 4) rfl
  | program _ hs => exact less_of_behind (behind_of_statement hs) (by decide : 4 < 5) rfl
  | bind => exact less_of_behind (.cons (.cons .first)) (by decide : 2 < 5) rfl
  | ret => exact less_of_behind .first (by decide : 2 < 5) rfl
  | eval => exact less_of_rank (by decide : 2 < 3) rfl
  | first => exact less_of_rank (by decide : 3 < 4) rfl
  | others _ _ hs => exact less_of_behind (behind_of_statement hs) (by decide : 4 < 5) rfl
  | operand =>
    cases ts with
    | nil => exact ⟨List.suffix_refl _, Nat.lt_succ_self 1⟩
    | cons t ts =>
      have hneed := (Call.operand t).need_le ts
      refine ⟨List.suffix_cons _ _, Nat.lt_of_le_of_lt hneed ?_⟩
      show 4 * ts.length + 5 < 4 * (ts.length + 1) + 2
      omega
  | operators hleft =>
    cases ts with
    | nil =>
      obtain ⟨e, he⟩ := operand_endOfFile fuel
      rw [show Token.ahead [] = .endOfFile from rfl, he] at hleft
      cases hleft
    | cons t ts =>
      have hus := ((Call.forward (.operand t) fuel ts).ok hleft).1
      exact less_of_behind (Behind.first.of_suffix hus) (by decide : 1 < 5) rfl
  | unary hfirst => exact less_of_rank (by decide : 2 < 5) (by rcases hfirst with rfl | rfl <;> rfl)
  | inside => exact less_of_rank (by decide : 2 < 5) rfl
  | conditional => exact less_of_rank (by decide : 3 < 5) rfl
  | body hnames =>
    have hbehind : Behind _ _ := forward_parameters.ok hnames
    exact less_of_behind hbehind.next.cons (by decide : 4 < 5) rfl
  | array => exact less_of_rank (by decide : 4 < 5) rfl
  | hash => exact less_of_rank (by decide : 3 < 5) rfl
  | arguments => exact less_of_behind .first (by decide : 4 < 5) rfl
  | behindCall _ harguments =>
    have hus := ((Call.forward (.elements .rightParen) fuel _).ok harguments).1
    exact less_of_behind (Behind.first.of_suffix hus) (by decide : 1 < 5) rfl
  | key => exact less_of_behind .first (by decide : 2 < 5) rfl
  | behindIndex _ hkey =>
    exact less_of_behind (behind_of_expression hkey).next.cons (by decide : 1 < 5) rfl
  | right => exact less_of_behind .first (by decide : 2 < 5) rfl
  | behindRight _ _ hright =>
    exact less_of_behind (behind_of_expression hright).cons (by decide : 1 < 5) rfl
  | condition => exact less_of_behind .first (by decide : 2 < 5) rfl
  | consequence hcondition =>
    exact less_of_behind (behind_of_expression hcondition).next.next.cons (by decide : 4 < 5) rfl
  | elseIf hcondition hthen =>
    have hus := (behind_of_expression hcondition).next.next
    have hvs := (behind_of_statements hthen).next.next.trans hus
    exact less_of_behind hvs.cons (by decide : 3 < 5) rfl
  | alternative hcondition hthen =>
    have hus := (behind_of_expression hcondition).next.next
    have hvs := (behind_of_statements hthen).next.next.trans hus
    exact less_of_behind hvs.cons (by decide : 4 < 5) rfl
  | list => exact less_of_rank (by decide : 3 < 4) rfl
  | element => exact less_of_rank (by decide : 2 < 3) rfl
  | more he => exact less_of_behind (behind_of_expression he).next (by decide : 3 < 5) rfl
  | entry => exact less_of_rank (by decide : 2 < 3) rfl
  | value _ hkey => exact less_of_behind (behind_of_expression hkey).next (by decide : 2 < 5) rfl
  | entries _ hkey hvalue =>
    have hus := (behind_of_expression hkey).next
    exact less_of_behind ((behind_of_expression hvalue).next.trans hus) (by decide : 3 < 5) rfl
  | close _ hkey hvalue _ =>
    have hus := (behind_of_expression hkey).next
    exact less_of_behind ((behind_of_expression hvalue).trans hus) (by decide : 3 < 5) rfl

/-- Nothing is tried twice: where a part fails, the whole fails alike. -/
theorem Part.error (h : Part fuel c ts d us) (he : d.run fuel us = .error e rest) :
    c.run (fuel + 1) ts = .error e rest := by
  cases h with
  | statement hend => exact (programOnto_of_ne hend).trans (bind_of_error he)
  | program hend hs => exact (programOnto_of_ne hend).trans ((bind_of_ok hs).trans he)
  | @bind name =>
    show (Reader.expression fuel .lowest >>= fun value => skipSemicolon >>= fun _ =>
      pure (Stmt.bind name (value.named name))) us = _
    exact bind_of_error he
  | ret =>
    show (Reader.expression fuel .lowest >>= fun value => skipSemicolon >>= fun _ =>
      pure (Stmt.ret value)) us = _
    exact bind_of_error he
  | eval hlet hreturn => exact (statement_of_ne hlet hreturn).trans (bind_of_error he)
  | first hbrace hend => exact (statementsOnto_of_ne hbrace hend).trans (bind_of_error he)
  | others hbrace hend hs =>
    exact (statementsOnto_of_ne hbrace hend).trans ((bind_of_ok hs).trans he)
  | operand => exact (bind_of_ok (x := take) rfl).trans (bind_of_error he)
  | operators hleft => exact (bind_of_ok hleft).trans he
  | unary hfirst =>
    obtain rfl | rfl := hfirst
    · exact bind_of_error he
    · exact bind_of_error he
  | inside => exact bind_of_error he
  | conditional => exact he
  | body hnames =>
    refine (bind_of_ok (expect_cons ..)).trans ((bind_of_ok hnames).trans ?_)
    exact (bind_of_ok (expect_cons ..)).trans (bind_of_error he)
  | array => exact bind_of_error he
  | hash => exact bind_of_error he
  | arguments hbound => exact (operators_paren hbound).trans (bind_of_error he)
  | behindCall hbound harguments => exact (operators_call hbound harguments).trans he
  | key hbound => exact (operators_bracket hbound).trans (bind_of_error he)
  | behindIndex hbound hkey => exact (operators_index hbound hkey).trans he
  | right hbound hoperator => exact (operators_of_lt hbound hoperator).trans (bind_of_error he)
  | behindRight hbound hoperator hright =>
    exact (operators_of_lt hbound hoperator).trans ((bind_of_ok hright).trans he)
  | condition => exact (bind_of_ok (expect_cons ..)).trans (bind_of_error he)
  | consequence hcondition =>
    refine (bind_of_ok (expect_cons ..)).trans ((bind_of_ok hcondition).trans ?_)
    refine (bind_of_ok (expect_cons ..)).trans ((bind_of_ok (expect_cons ..)).trans ?_)
    exact bind_of_error he
  | elseIf hcondition hthen =>
    refine (bind_of_ok (expect_cons ..)).trans ((bind_of_ok hcondition).trans ?_)
    refine (bind_of_ok (expect_cons ..)).trans ((bind_of_ok (expect_cons ..)).trans ?_)
    rw [bind_of_ok hthen, bind_of_ok (peek_eq _), Token.ahead, List.headD_cons, if_pos rfl,
      bind_of_ok (take_cons ..), bind_of_ok (peek_eq _), Token.ahead, List.headD_cons, if_pos rfl,
      bind_of_ok (take_cons ..)]
    exact bind_of_error he
  | alternative hcondition hthen =>
    refine (bind_of_ok (expect_cons ..)).trans ((bind_of_ok hcondition).trans ?_)
    refine (bind_of_ok (expect_cons ..)).trans ((bind_of_ok (expect_cons ..)).trans ?_)
    rw [bind_of_ok hthen, bind_of_ok (peek_eq _), Token.ahead, List.headD_cons, if_pos rfl,
      bind_of_ok (take_cons ..), bind_of_ok (peek_eq _), Token.ahead, List.headD_cons,
      if_neg (by decide), bind_of_ok (expect_cons ..)]
    exact bind_of_error he
  | list hclose =>
    show Reader.elements (fuel + 1) _ ts = _
    rw [Reader.elements, bind_of_ok (peek_eq _), if_neg hclose]
    exact he
  | element => exact bind_of_error he
  | more hread => exact (bind_of_ok hread).trans he
  | entry hbrace =>
    show entriesOnto _ (fuel + 1) ts = _
    rw [entriesOnto, bind_of_ok (peek_eq ts), if_neg hbrace]
    exact bind_of_error he
  | value hbrace hkey => exact (entriesOnto_of_ne hbrace hkey).trans (bind_of_error he)
  | entries hbrace hkey hvalue =>
    exact (entriesOnto_of_ne hbrace hkey).trans ((bind_of_ok hvalue).trans he)
  | @close _ _ _ _ _ vs hbrace hkey hvalue hend =>
    refine (entriesOnto_of_ne hbrace hkey).trans ((bind_of_ok hvalue).trans ?_)
    rw [behindEntry, bind_of_ok (peek_eq _), hend]
    exact he

/-- A call with the allowance that it needs does not use it up. -/
theorem lasts (h : c.need ts ≤ fuel) : Lasts (c.run fuel) ts := by
  induction fuel generalizing c ts with
  | zero => exact absurd h (Nat.not_le_of_lt (c.need_pos ts))
  | succ fuel ih =>
    exact lasts_of_parts fun hpart => ih (Nat.le_of_lt_succ (Nat.lt_of_lt_of_le hpart.less.2 h))

/-- Where a call anywhere in the course of another fails, the other fails alike. -/
theorem Visits.error (h : Visits fuel c ts n d us) (he : d.run n us = .error e rest) :
    c.run fuel ts = .error e rest := by
  induction h with
  | here => exact he
  | part _ hpart ih => exact ih (hpart.error he)

/-- What is unread anywhere in the course of a call is an end of what was unread before it, and the
allowance there is enough if it was. -/
theorem Visits.unread (h : Visits fuel c ts n d us) :
    us <:+ ts ∧ (c.need ts ≤ fuel → d.need us ≤ n) := by
  induction h with
  | here => exact ⟨List.suffix_refl _, id⟩
  | part _ hpart ih =>
    obtain ⟨hus, hless⟩ := hpart.less
    exact ⟨hus.trans ih.1, fun hneed => Nat.le_of_lt_succ (Nat.lt_of_lt_of_le hless (ih.2 hneed))⟩

end Call

/-! ## Larger allowances -/

/-- Where the one reader does not use up its allowance, the other reads the same. -/
def Settled (x y : Reader α) : Prop := ∀ ts, Lasts x ts → y ts = x ts

theorem settled_refl (x : Reader α) : Settled x x := fun _ _ => rfl

theorem Settled.bind (hx : Settled x y) (hf : ∀ a, Settled (f a) (g a)) :
    Settled (x >>= f) (y >>= g) := by
  intro ts hlasts
  have hfirst : Lasts x ts := fun rest he => hlasts rest (bind_of_error he)
  cases hread : x ts with
  | ok a us =>
    have hread' : y ts = .ok a us := (hx ts hfirst).trans hread
    rw [bind_of_ok hread, bind_of_ok hread']
    refine hf a us fun rest he => hlasts rest ?_
    rw [bind_of_ok hread, he]
  | error e us =>
    have hread' : y ts = .error e us := (hx ts hfirst).trans hread
    rw [bind_of_error hread, bind_of_error hread']

theorem Settled.after (hf : ∀ a, Settled (f a) (g a)) : Settled (x >>= f) (x >>= g) :=
  (settled_refl x).bind hf

theorem Settled.ite {p : Prop} [Decidable p] {x' y' : Reader α} (hx : Settled x y)
    (hx' : Settled x' y') : Settled (if p then x else x') (if p then y else y') := by
  split
  · exact hx
  · exact hx'

section Settled

variable (h : ∀ c : Call, Settled (c.run fuel) (c.run (fuel + 1)))

include h

theorem settled_program (acc : List Stmt) :
    Settled (programOnto acc (fuel + 1)) (programOnto acc (fuel + 2)) :=
  .after fun _ => .ite (settled_refl _) ((h .statement).bind fun s => h (.program (s :: acc)))

theorem settled_statement : Settled (statement (fuel + 1)) (statement (fuel + 2)) := by
  unfold statement
  refine .after fun ahead => ?_
  cases ahead with
  | letWord =>
    refine .after fun _ => .after fun found => ?_
    cases found with
    | identifier name =>
      exact .after fun _ => (h (.expression .lowest)).bind fun _ => settled_refl _
    | _ => exact settled_refl _
  | returnWord => exact .after fun _ => (h (.expression .lowest)).bind fun _ => settled_refl _
  | _ => exact (h (.expression .lowest)).bind fun _ => settled_refl _

theorem settled_statements (acc : List Stmt) :
    Settled (statementsOnto acc (fuel + 1)) (statementsOnto acc (fuel + 2)) := by
  rw [statementsOnto, statementsOnto]
  refine .after fun ahead => ?_
  cases ahead with
  | rightBrace => exact settled_refl _
  | endOfFile => exact settled_refl _
  | _ => exact (h .statement).bind fun s => h (.statements (s :: acc))

theorem settled_operand (first : Token) :
    Settled (operand (fuel + 1) first) (operand (fuel + 2) first) := by
  cases first with
  | bang => exact (h (.expression .unary)).bind fun _ => settled_refl _
  | minus => exact (h (.expression .unary)).bind fun _ => settled_refl _
  | leftParen => exact (h (.expression .lowest)).bind fun _ => settled_refl _
  | ifWord => exact h .conditional
  | fnWord =>
    refine .after fun _ => .after fun names => .after fun _ => ?_
    exact (h (.statements [])).bind fun _ => settled_refl _
  | leftBracket => exact (h (.elements .rightBracket)).bind fun _ => settled_refl _
  | leftBrace => exact (h (.entries [])).bind fun _ => settled_refl _
  | _ => exact settled_refl _

theorem settled_operators (bound : Precedence) (left : Expr) :
    Settled (operators (fuel + 1) bound left) (operators (fuel + 2) bound left) := by
  rw [operators, operators]
  refine .after fun ahead => .ite (.after fun _ => ?_) (settled_refl _)
  cases ahead with
  | leftParen => exact (h (.elements .rightParen)).bind fun _ => h (.operators bound _)
  | leftBracket =>
    exact (h (.expression .lowest)).bind fun _ => .after fun _ => h (.operators bound _)
  | _ =>
    dsimp only
    generalize Operator.ofToken? _ = operator
    cases operator with
    | none => exact settled_refl _
    | some operator => exact (h (.expression _)).bind fun _ => h (.operators bound _)

theorem settled_conditional : Settled (conditional (fuel + 1)) (conditional (fuel + 2)) := by
  rw [conditional, conditional]
  refine .after fun _ => (h (.expression .lowest)).bind fun _ => .after fun _ => .after fun _ => ?_
  refine (h (.statements [])).bind fun _ => .after fun _ => .ite ?_ (settled_refl _)
  refine .after fun _ => .after fun _ => .ite (.after fun _ => ?_) (.after fun _ => ?_)
  · exact (h .conditional).bind fun _ => settled_refl _
  · exact (h (.statements [])).bind fun _ => settled_refl _

theorem settled_more (acc : List Expr) (close : Token) :
    Settled (elementsOnto acc (fuel + 1) close) (elementsOnto acc (fuel + 2) close) := by
  rw [elementsOnto, elementsOnto]
  refine (h (.expression .lowest)).bind fun e => .after fun _ => ?_
  exact .ite (h (.more (e :: acc) close)) (settled_refl _)

theorem settled_entries (acc : List (Expr × Expr)) :
    Settled (entriesOnto acc (fuel + 1)) (entriesOnto acc (fuel + 2)) := by
  rw [entriesOnto, entriesOnto]
  refine .after fun _ => .ite (settled_refl _) ?_
  refine (h (.expression .lowest)).bind fun key => .after fun _ => ?_
  refine (h (.expression .lowest)).bind fun value => .after fun ahead => ?_
  cases ahead with
  | comma => exact .after fun _ => h (.entries ((key, value) :: acc))
  | rightBrace => exact h (.entries ((key, value) :: acc))
  | _ => exact settled_refl _

end Settled

theorem Call.settled (c : Call) (fuel : Nat) : Settled (c.run fuel) (c.run (fuel + 1)) := by
  induction fuel generalizing c with
  | zero =>
    intro ts hlasts
    rw [run_zero] at hlasts
    exact absurd rfl (hlasts ts)
  | succ fuel ih =>
    cases c with
    | program acc => exact settled_program ih acc
    | statement => exact settled_statement ih
    | statements acc => exact settled_statements ih acc
    | expression bound =>
      show Settled (Reader.expression (fuel + 1) bound) (Reader.expression (fuel + 2) bound)
      rw [Reader.expression, Reader.expression]
      exact .after fun first => (ih (.operand first)).bind fun left => ih (.operators bound left)
    | operand first => exact settled_operand ih first
    | operators bound left => exact settled_operators ih bound left
    | conditional => exact settled_conditional ih
    | elements close =>
      show Settled (Reader.elements (fuel + 1) close) (Reader.elements (fuel + 2) close)
      rw [Reader.elements, Reader.elements]
      exact .after fun _ => .ite (settled_refl _) (ih (.more [] close))
    | more acc close => exact settled_more ih acc close
    | entries acc => exact settled_entries ih acc

/-- Every allowance that is enough reads the same. -/
theorem Call.run_of_le {c : Call} {enough : Nat} (h : c.need ts ≤ enough) (hle : enough ≤ fuel) :
    c.run fuel ts = c.run enough ts := by
  obtain ⟨more, rfl⟩ := Nat.exists_eq_add_of_le hle
  clear hle
  induction more with
  | zero => rfl
  | succ more ih =>
    have hlasts : Lasts (c.run (enough + more)) ts := Call.lasts (Nat.le_add_right_of_le h)
    exact (c.settled _ ts hlasts).trans ih

/-- A program is only read where the end of the file is ahead. -/
theorem ahead_of_programOnto {acc : List Stmt} {program : Program}
    (h : programOnto acc fuel ts = .ok program rest) : Token.ahead rest = .endOfFile := by
  induction fuel generalizing acc ts with
  | zero => cases h
  | succ fuel ih =>
    obtain ⟨ahead, us, hahead, h⟩ := bind_eq_ok.1 h
    cases hahead
    split at h
    · next hend =>
      cases h
      exact hend
    · obtain ⟨s, us, -, h⟩ := bind_eq_ok.1 h
      exact ih h

end Reader

open Reader

/-- Reading comes to an end and goes forward all the way.

* What is left of a text behind a token is an end of the text, and a shorter one behind anything but
  the end of the file.  So reading token by token comes to the end of the file, or else to an error,
  behind no more tokens than the text has characters.
* With the allowance for the tokens and every larger one, a program is read alike, and the allowance
  is not used up.  Wherever a reader is called on the way, an end of the tokens is unread, and an
  end of these when the reader is done; and if it fails, the program fails there.
* Under every allowance a statement, an expression, a block, a hash literal and a list take at least
  one token.
* Behind a program that was read, no token is left, or the end of the file is ahead.  None is left
  if the tokens were read from a text. -/
theorem Program.reading_ends :
    (∀ cs, (Token.next cs).2 <:+ cs ∧
      ((Token.next cs).1 ≠ .ok .endOfFile → (Token.next cs).2.length < cs.length)) ∧
    (∀ cs, ∃ ts last, ts.length ≤ cs.length ∧ Token.endOfFile ∉ ts ∧
      Token.outcomes (ts.length + 1) cs = ts.map .ok ++ [last] ∧
      ((last = .ok .endOfFile ∧ Token.scan cs = .ok ts) ∨
        ∃ e, last = .error e ∧ Token.scan cs = .error e)) ∧
    (∀ tokens fuel, allowance tokens ≤ fuel →
      programOnto [] fuel tokens = Program.ofTokens tokens ∧ Lasts (programOnto [] fuel) tokens ∧
      ∀ n c unread, Call.Visits fuel (.program []) tokens n c unread →
        unread <:+ tokens ∧ Lasts (c.run n) unread ∧ Forward 0 (c.run n) unread ∧
          ∀ e rest, c.run n unread = .error e rest → Program.ofTokens tokens = .error e rest) ∧
    (∀ fuel tokens, Forward 1 (statement fuel) tokens ∧
      (∀ bound, Forward 1 (expression fuel bound) tokens) ∧
      (∀ acc, Forward 1 (statementsOnto acc fuel) tokens) ∧
      (∀ acc, Forward 1 (entriesOnto acc fuel) tokens) ∧
      ∀ close, close ≠ .endOfFile → Forward 1 (elements fuel close) tokens) ∧
    ∀ tokens program rest, Program.ofTokens tokens = .ok program rest →
      rest <:+ tokens ∧ (rest = [] ∨ ∃ more, rest = .endOfFile :: more) ∧
        ∀ source, Token.scan source = .ok tokens → rest = [] := by
  have hscan : ∀ cs, ∃ ts last, ts.length ≤ cs.length ∧ Token.endOfFile ∉ ts ∧
      Token.outcomes (ts.length + 1) cs = ts.map .ok ++ [last] ∧
      ((last = .ok .endOfFile ∧ Token.scan cs = .ok ts) ∨
        ∃ e, last = .error e ∧ Token.scan cs = .error e) := fun cs => by
    obtain ⟨ts, last, hlength, hend, houtcomes, hscan⟩ := Token.exists_outcomes cs
    refine ⟨ts, last, hlength, hend, houtcomes, hscan.imp ?_ ?_⟩
    · exact fun h => ⟨h.1, h.2 []⟩
    · exact fun ⟨e, hlast, h⟩ => ⟨e, hlast, h []⟩
  refine ⟨fun cs => ⟨Token.next_suffix cs, Token.length_next_lt⟩, hscan,
    fun tokens fuel hfuel => ?_, fun fuel tokens => ?_, fun tokens program rest h => ?_⟩
  · have henough : (Call.program []).need tokens ≤ allowance tokens :=
      Nat.add_le_add_left (by decide : 4 ≤ 8) _
    have hsame : programOnto [] fuel tokens = Program.ofTokens tokens :=
      Call.run_of_le henough hfuel
    refine ⟨hsame, Call.lasts (Nat.le_trans henough hfuel), fun n c unread hvisits => ?_⟩
    obtain ⟨hunread, hneed⟩ := hvisits.unread
    exact ⟨hunread, Call.lasts (hneed (Nat.le_trans henough hfuel)),
      (c.forward n unread).weaken (Nat.zero_le _), fun e rest he => hsame ▸ hvisits.error he⟩
  · refine ⟨Call.forward .statement fuel tokens,
      fun bound => Call.forward (.expression bound) fuel tokens,
      fun acc => Call.forward (.statements acc) fuel tokens,
      fun acc => Call.forward (.entries acc) fuel tokens, fun close hclose => ?_⟩
    have hforward := Call.forward (.elements close) fuel tokens
    rwa [Call.cost, if_neg hclose] at hforward
  · have hrest := ((Call.program []).forward _ tokens).ok h |>.1
    have hahead := ahead_of_programOnto h
    have hend : rest = [] ∨ ∃ more, rest = .endOfFile :: more := by
      cases rest with
      | nil => exact .inl rfl
      | cons t more =>
        obtain rfl : t = .endOfFile := hahead
        exact .inr ⟨more, rfl⟩
    refine ⟨hrest, hend, fun source hsource => hend.resolve_right ?_⟩
    rintro ⟨more, rfl⟩
    obtain ⟨ts, last, -, hnotMem, -, ⟨-, hts⟩ | ⟨e, -, he⟩⟩ := hscan source
    · obtain rfl : ts = tokens := Except.ok.inj (hts.symm.trans hsource)
      exact hnotMem (hrest.subset (.head _))
    · rw [he] at hsource
      cases hsource

/-- A program that the end of the file cuts short. -/
def Token.cutShort : List Token :=
  [.ifWord, .leftParen, .identifier "a", .rightParen, .leftBrace, .rightBrace, .endOfFile,
    .unknown "@", .rightBrace]

theorem Program.cutShort_read :
    programOnto [] 1000 Token.cutShort =
        .ok [.eval (.conditional (.identifier "a") [] none)]
          [.endOfFile, .unknown "@", .rightBrace] ∧
      [.endOfFile, .unknown "@", .rightBrace] <:+ Token.cutShort :=
  have hread : Program.ofTokens Token.cutShort =
      .ok [.eval (.conditional (.identifier "a") [] none)]
        [.endOfFile, .unknown "@", .rightBrace] := by rfl
  ⟨(Program.reading_ends.2.2.1 Token.cutShort 1000 (by decide)).1.trans hread,
    (Program.reading_ends.2.2.2.2 _ _ _ hread).1⟩

end Scriptlet
