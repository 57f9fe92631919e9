import Scriptlet.Proofs.Environments
import Scriptlet.Proofs.Fragment

/-!
# Values of the two engines

A closure of the machine holds the values it has captured, a function of the evaluator the number of
an environment.  Whether the two are the same function depends on what that environment shows, and
whether two arrays are the same array depends on which identities belong together.  A `World` is
what both depend on.

* `World.Good` is the invariant of worlds: identities belong together one to one, and the scope of
  an environment holds every name that is bound in or around it.
* `World.Ext` and `World.Le` say that a world has only grown.
* `Value.Related` relates a value of the machine to one of the evaluator.  It is monotone in the
  world, which is all that a later state has to know about values made earlier.

Every operation on values that the engines have in common takes related operands to related results,
or fails in both.  A builtin function that does not take a value answers with the kind of the value,
and there a closure is called a closure by one engine and a function by the other.

## Why environments have a scope

A function is called after the world has grown, and by then more names may be bound around it.  If
its own parameters or locals could be among them, the evaluator would see a value that the machine
does not know of.  The scope of an environment holds the names that can ever be bound around it, so
"not in scope" is something that cannot become false.
-/

namespace Scriptlet

open Code

/-- Two lists are related in all places. -/
theorem forall₂_iff_getElem? {α β : Type} {r : α → β → Prop} {xs : List α} {ys : List β} :
    List.Forall₂ r xs ys ↔ xs.length = ys.length ∧
      ∀ (i : Nat) x y, xs[i]? = some x → ys[i]? = some y → r x y := by
  rw [List.forall₂_iff_get]
  refine and_congr_right fun _ => ⟨fun h i x y hx hy => ?_, fun h i hx hy => ?_⟩
  · obtain ⟨hi, rfl⟩ := List.getElem?_eq_some_iff.1 hx
    obtain ⟨hi', rfl⟩ := List.getElem?_eq_some_iff.1 hy
    exact h i hi hi'
  · exact h i _ _ (List.getElem?_eq_getElem hx) (List.getElem?_eq_getElem hy)

/-! ## Worlds -/

/-- The store of the evaluator, with what ties it to a machine. -/
structure World where
  store : Store
  /-- A running number of the machine that no identity has reached. -/
  made : Nat
  /-- The identities of the machine and of the evaluator that belong together. -/
  pairs : Nat → Nat → Prop
  /-- The names that may come to be bound in or around an environment. -/
  scope : Nat → String → Prop
  /-- The global slots of the machine. -/
  globals : Array Value

namespace World

/-- The invariant of worlds. -/
structure Good (W : World) : Prop where
  bounded : ∀ {a b}, W.pairs a b → a < W.made ∧ b < W.store.host.made
  right : ∀ {a b b'}, W.pairs a b → W.pairs a b' → b = b'
  left : ∀ {a a' b}, W.pairs a b → W.pairs a' b → a = a'
  names : W.store.Scoped W.scope

/-- A world in which everything holds that could be said about values of another. -/
structure Ext (W W' : World) : Prop where
  next : W.store.next ≤ W'.store.next
  pairs : ∀ {a b}, W.pairs a b → W'.pairs a b
  scope : ∀ {env x}, env < W.store.next → (W'.scope env x ↔ W.scope env x)
  get? : ∀ {env x v}, W.store.get? env x = some v → W'.store.get? env x = some v

/-- A world that comes later.  Identities that belong together only now are new on both sides, and
the first `n` environments show what they did.  The names of the program are bound in the first of
them. -/
structure Le (n : Nat) (W W' : World) : Prop extends Ext W W' where
  made : W.made ≤ W'.made
  host : W.store.host.made ≤ W'.store.host.made
  newer : ∀ {a b}, W'.pairs a b → W.pairs a b ∨ W.made ≤ a ∧ W.store.host.made ≤ b
  same : ∀ {env} x, env < n → W'.store.get? env x = W.store.get? env x
  globals : 0 < n → W'.globals = W.globals

/-- The names are distinct and can be bound inside of an environment without being hidden or hiding
anything. -/
structure Owns (W : World) (env : Nat) (names : List String) : Prop where
  nodup : names.Nodup
  unscoped : ∀ x ∈ names, ¬ W.scope env x
  unhidden : ∀ x ∈ names, Builtin.ofName? x = none

variable {W W' W'' : World} {n n' env : Nat} {names names' : List String}

theorem Ext.refl (W : World) : W.Ext W := ⟨Nat.le_refl _, id, fun _ => Iff.rfl, id⟩

theorem Ext.trans (h : W.Ext W') (h' : W'.Ext W'') : W.Ext W'' :=
  ⟨Nat.le_trans h.next h'.next, fun hp => h'.pairs (h.pairs hp),
    fun henv => (h'.scope (Nat.lt_of_lt_of_le henv h.next)).trans (h.scope henv),
    fun hget => h'.get? (h.get? hget)⟩

theorem Ext.map_get? (h : W.Ext W') {captures : List Symbol} {seen : List Value}
    (hseen : captures.map (fun c => W.store.get? env c.name) = seen.map some) :
    captures.map (fun c => W'.store.get? env c.name) = seen.map some := by
  induction captures generalizing seen with
  | nil => exact hseen
  | cons c rest ih =>
    cases seen with
    | nil => cases hseen
    | cons v seen =>
      obtain ⟨hc, hrest⟩ := List.cons.inj hseen
      rw [List.map_cons, List.map_cons, h.get? hc, ih hrest]

theorem Le.refl (n : Nat) (W : World) : W.Le n W where
  toExt := .refl W
  made := Nat.le_refl _
  host := Nat.le_refl _
  newer := .inl
  same _ _ := rfl
  globals _ := rfl

theorem Le.trans (h : W.Le n W') (h' : W'.Le n' W'') (hn : n ≤ n') : W.Le n W'' where
  toExt := h.toExt.trans h'.toExt
  made := Nat.le_trans h.made h'.made
  host := Nat.le_trans h.host h'.host
  newer hp := by
    rcases h'.newer hp with hp | ⟨ha, hb⟩
    · exact h.newer hp
    · exact .inr ⟨Nat.le_trans h.made ha, Nat.le_trans h.host hb⟩
  same x henv := (h'.same x (Nat.lt_of_lt_of_le henv hn)).trans (h.same x henv)
  globals hpos := (h'.globals (Nat.lt_of_lt_of_le hpos hn)).trans (h.globals hpos)

theorem Le.mono (h : W.Le n W') (hn : n' ≤ n) : W.Le n' W' :=
  { h with
    same := fun x henv => h.same x (Nat.lt_of_lt_of_le henv hn)
    globals := fun hpos => h.globals (Nat.lt_of_lt_of_le hpos hn) }

theorem Owns.mono (h : W.Owns env names) (hext : W.Ext W') (henv : env < W.store.next) :
    W'.Owns env names :=
  ⟨h.nodup, fun x hx hscope => h.unscoped x hx ((hext.scope henv).1 hscope), h.unhidden⟩

theorem Owns.left (h : W.Owns env (names ++ names')) : W.Owns env names :=
  ⟨(List.nodup_append.1 h.nodup).1, fun x hx => h.unscoped x (List.mem_append_left _ hx),
    fun x hx => h.unhidden x (List.mem_append_left _ hx)⟩

theorem Owns.right (h : W.Owns env (names ++ names')) : W.Owns env names' :=
  ⟨(List.nodup_append.1 h.nodup).2.1, fun x hx => h.unscoped x (List.mem_append_right _ hx),
    fun x hx => h.unhidden x (List.mem_append_right _ hx)⟩

theorem Owns.perm (h : W.Owns env names) (hperm : names.Perm names') : W.Owns env names' :=
  ⟨hperm.nodup_iff.1 h.nodup, fun x hx => h.unscoped x (hperm.mem_iff.2 hx),
    fun x hx => h.unhidden x (hperm.mem_iff.2 hx)⟩

/-- The world in which the next identities of both engines belong together. -/
def allocate (W : World) (made : Nat) : World where
  store := { W.store with host := W.store.host.used }
  made := made + 1
  pairs := fun a b => W.pairs a b ∨ a = made ∧ b = W.store.host.made
  scope := W.scope
  globals := W.globals

/-- The world in which the evaluator has used identities that do not matter. -/
def withHost (W : World) (host : Host) : World := { W with store := { W.store with host := host } }

/-- The world in which the machine has used identities that do not matter. -/
def upTo (W : World) (made : Nat) : World := { W with made := made }

theorem Good.allocate {made : Nat} (h : W.Good) (hmade : W.made ≤ made) :
    (W.allocate made).Good := by
  refine ⟨?_, ?_, ?_, h.names.withHost _⟩
  · rintro a b (hp | ⟨rfl, rfl⟩)
    · obtain ⟨ha, hb⟩ := h.bounded hp
      exact ⟨Nat.lt_succ_of_lt (Nat.lt_of_lt_of_le ha hmade), Nat.lt_succ_of_lt hb⟩
    · exact ⟨Nat.lt_succ_self _, Nat.lt_succ_self _⟩
  · rintro a b b' (hp | ⟨rfl, rfl⟩) (hp' | ⟨ha, rfl⟩)
    · exact h.right hp hp'
    · have := (h.bounded hp).1
      omega
    · have := (h.bounded hp').1
      omega
    · rfl
  · rintro a a' b (hp | ⟨rfl, rfl⟩) (hp' | ⟨rfl, hb⟩)
    · exact h.left hp hp'
    · have := (h.bounded hp).2
      omega
    · have := (h.bounded hp').2
      omega
    · rfl

theorem le_allocate {made : Nat} (hmade : W.made ≤ made) (n : Nat) :
    W.Le n (W.allocate made) where
  next := Nat.le_refl _
  pairs := .inl
  scope _ := Iff.rfl
  get? hget := (Store.get?_withHost ..).trans hget
  made := Nat.le_succ_of_le hmade
  host := Nat.le_succ _
  newer hp := by
    rcases hp with hp | ⟨rfl, rfl⟩
    · exact .inl hp
    · exact .inr ⟨hmade, Nat.le_refl _⟩
  same _ _ := Store.get?_withHost ..
  globals _ := rfl

theorem Good.withHost {host : Host} (h : W.Good) (hhost : W.store.host.made ≤ host.made) :
    (W.withHost host).Good :=
  ⟨fun hp => ⟨(h.bounded hp).1, Nat.lt_of_lt_of_le (h.bounded hp).2 hhost⟩, h.right, h.left,
    h.names.withHost _⟩

theorem le_withHost {host : Host} (hhost : W.store.host.made ≤ host.made) (n : Nat) :
    W.Le n (W.withHost host) where
  next := Nat.le_refl _
  pairs := id
  scope _ := Iff.rfl
  get? hget := (Store.get?_withHost ..).trans hget
  made := Nat.le_refl _
  host := hhost
  newer := .inl
  same _ _ := Store.get?_withHost ..
  globals _ := rfl

theorem Good.upTo {made : Nat} (h : W.Good) (hmade : W.made ≤ made) : (W.upTo made).Good :=
  ⟨fun hp => ⟨Nat.lt_of_lt_of_le (h.bounded hp).1 hmade, (h.bounded hp).2⟩, h.right, h.left,
    h.names⟩

theorem le_upTo {made : Nat} (hmade : W.made ≤ made) (n : Nat) : W.Le n (W.upTo made) :=
  { Le.refl n W with made := hmade }

end World

/-! ## Compiled functions -/

/-- What was known at a stage is known at the end of compilation. -/
structure Stage.Within (s final : Stage) : Prop where
  constants : s.constants.toList <+: final.constants.toList
  names : ∀ {name symbol}, s.tables.outermost.get? name = some symbol →
    final.tables.outermost.get? name = some symbol

/-- The routine is the code of a function literal.  It was compiled when the names of the program
were those of `table`, and it captures `captures`. -/
inductive FunctionLiteral.Compiled (final : Stage) :
    SymbolTable → List Symbol → Routine → FunctionLiteral → Prop
  | intro {s s' : Stage} {literal : FunctionLiteral} {is : List Instruction} (hs : s.Sound)
      (hbody : StmtsCode (s.enter literal.name literal.parameters) 0 literal.body is s')
      (hlocals : s'.tables.inner.definitions ≤ 255)
      (hcaptures : s'.tables.inner.captures.size ≤ 255) (hwithin : s'.Within final)
      (hregular : Program.isRegular true true literal.body = true) :
      Compiled final s.tables.outermost s'.captures
        (s'.routine is literal.parameters.length) literal

/-! ## Related values -/

/-- A value of the machine and a value of the evaluator that stand for the same. -/
inductive Value.Related (final : Stage) (W : World) : Value → Value → Prop
  | integer (value : Int64) : Related final W (.integer value) (.integer value)
  | boolean (value : Bool) : Related final W (.boolean value) (.boolean value)
  | null : Related final W .null .null
  | string (stamp stamp' : Stamp) (contents : String) :
      Related final W (.string stamp contents) (.string stamp' contents)
  | builtin (function : Builtin) : Related final W (.builtin function) (.builtin function)
  | failure (message : String) : Related final W (.failure message) (.failure message)
  /-- A builtin function that does not take a value says of what kind the value is. -/
  | refused (function : Builtin) {v w : Value} (h : Related final W v w) :
      Related final W (.failure (function.refusal ++ v.kind.text))
        (.failure (function.refusal ++ w.kind.text))
  | array {a b : Nat} {xs ys : List Value} (hpair : W.pairs a b) (hlength : xs.length = ys.length)
      (hall : ∀ (i : Nat) x y, xs[i]? = some x → ys[i]? = some y → Related final W x y) :
      Related final W (.array (.made a) xs) (.array (.made b) ys)
  | hash {a b : Nat} {xs ys : List (Key × Value)} (hpair : W.pairs a b)
      (hkeys : xs.map Prod.fst = ys.map Prod.fst)
      (hall : ∀ (i : Nat) x y, xs[i]? = some x → ys[i]? = some y → Related final W x.2 y.2) :
      Related final W (.hash (.made a) xs) (.hash (.made b) ys)
  /-- The environment of the function shows the values that the closure has captured, the function
  itself and the names of the program. -/
  | closure {a b env : Nat} {r : Routine} {literal : FunctionLiteral} {table : SymbolTable}
      {captures : List Symbol} {free seen : List Value} (hpair : W.pairs a b)
      (hcompiled : literal.Compiled final table captures r) (henv : env < W.store.next)
      (howns : W.Owns env (literal.parameters ++ Program.binders literal.body))
      (hunhidden : ∀ x, W.scope env x → Builtin.ofName? x = none)
      (hself : ∀ name, literal.name = some name →
        W.store.get? env name = some (.function (.made b) literal env))
      (hglobals : ∀ name symbol, table.get? name = some symbol → symbol.place = .globalSlot →
        ∃ v, W.store.get? env name = some v ∧ W.store.get? 0 name = some v)
      (hseen : captures.map (fun c => W.store.get? env c.name) = seen.map some)
      (hlength : free.length = seen.length)
      (hall : ∀ (i : Nat) x y, free[i]? = some x → seen[i]? = some y → Related final W x y) :
      Related final W (.closure (.made a) r free) (.function (.made b) literal env)

namespace Value

variable {final : Stage} {W W' : World} {v v₁ v₂ w w₁ w₂ : Value} {vs ws : List Value}

/-- What is related stays related as the world grows. -/
theorem Related.mono (h : v.Related final W w) (hext : W.Ext W') : v.Related final W' w := by
  induction h with
  | integer value => exact .integer value
  | boolean value => exact .boolean value
  | null => exact .null
  | string stamp stamp' contents => exact .string stamp stamp' contents
  | builtin function => exact .builtin function
  | failure message => exact .failure message
  | refused function _ ih => exact .refused function ih
  | array hpair hlength _ ih => exact .array (hext.pairs hpair) hlength ih
  | hash hpair hkeys _ ih => exact .hash (hext.pairs hpair) hkeys ih
  | @closure a b env r literal table captures free seen hpair hcompiled henv howns hunhidden hself
      hglobals hseen hlength _ ih =>
    refine .closure (hext.pairs hpair) hcompiled (Nat.lt_of_lt_of_le henv hext.next)
      (howns.mono hext henv) (fun x hx => hunhidden x ((hext.scope henv).1 hx))
      (fun name hname => hext.get? (hself name hname)) ?_ ?_ hlength ih
    · intro name symbol hget hplace
      obtain ⟨v, hv, hv₀⟩ := hglobals name symbol hget hplace
      exact ⟨v, hext.get? hv, hext.get? hv₀⟩
    · exact hext.map_get? hseen

/-- Lists of related values. -/
abbrev RelatedAll (final : Stage) (W : World) : List Value → List Value → Prop :=
  List.Forall₂ (Related final W)

theorem RelatedAll.mono (h : RelatedAll final W vs ws) (hext : W.Ext W') :
    RelatedAll final W' vs ws := h.imp fun _ _ hv => hv.mono hext

theorem related_array {a b : Nat} (hpair : W.pairs a b) (h : RelatedAll final W vs ws) :
    Related final W (.array (.made a) vs) (.array (.made b) ws) := by
  obtain ⟨hlength, hall⟩ := forall₂_iff_getElem?.1 h
  exact .array hpair hlength hall

/-- Entries with the same keys and related values. -/
def RelatedEntry (final : Stage) (W : World) (x y : Key × Value) : Prop :=
  x.1 = y.1 ∧ Related final W x.2 y.2

theorem related_hash {a b : Nat} {xs ys : List (Key × Value)} (hpair : W.pairs a b)
    (h : List.Forall₂ (RelatedEntry final W) xs ys) :
    Related final W (.hash (.made a) xs) (.hash (.made b) ys) := by
  refine .hash hpair ?_ fun i x y hx hy => ((forall₂_iff_getElem?.1 h).2 i x y hx hy).2
  induction h with
  | nil => rfl
  | cons hfirst _ ih => rw [List.map_cons, List.map_cons, hfirst.1, ih]

theorem forall₂_entries {xs ys : List (Key × Value)} (hkeys : xs.map Prod.fst = ys.map Prod.fst)
    (hall : ∀ (i : Nat) x y, xs[i]? = some x → ys[i]? = some y → Related final W x.2 y.2) :
    List.Forall₂ (RelatedEntry final W) xs ys := by
  refine forall₂_iff_getElem?.2 ⟨by simpa using congrArg List.length hkeys, ?_⟩
  intro i x y hx hy
  refine ⟨?_, hall i x y hx hy⟩
  have hi : (xs.map Prod.fst)[i]? = (ys.map Prod.fst)[i]? := by rw [hkeys]
  rw [List.getElem?_map, List.getElem?_map, hx, hy] at hi
  exact Option.some.inj hi

/-! ## What can be observed of a value -/

theorem Related.isTruthy_eq (h : v.Related final W w) : v.isTruthy = w.isTruthy := by
  cases h <;> rfl

theorem Related.key?_eq (h : v.Related final W w) : v.key? = w.key? := by
  cases h <;> rfl

theorem Related.ne_returned (h : v.Related final W w) (w' : Value) : w ≠ .returned w' := by
  rintro rfl
  cases h

theorem made_beq_of_pairs (hW : W.Good) {a a' b b' : Nat} (h : W.pairs a b) (h' : W.pairs a' b') :
    (Stamp.made a == Stamp.made a') = (Stamp.made b == Stamp.made b') := by
  by_cases ha : a = a'
  · subst ha
    rw [hW.right h h']
    simp
  · have hb : b ≠ b' := by
      rintro rfl
      exact ha (hW.left h h')
    simp [ha, hb]

/-- Two values, not both of them strings, are one object in both engines or in none. -/
theorem same_eq_of_related (hW : W.Good) (h₁ : v₁.Related final W w₁) (h₂ : v₂.Related final W w₂)
    (hstring : ∀ s t x y, v₁ = .string s x → v₂ ≠ .string t y) : v₁.same v₂ = w₁.same w₂ := by
  cases h₁ with
  | string s s' x =>
    cases h₂ with
    | string t t' y => exact absurd rfl (hstring s t x y rfl)
    | _ => rfl
  | array hpair =>
    cases h₂ with
    | array hpair' => exact made_beq_of_pairs hW hpair hpair'
    | _ => rfl
  | hash hpair =>
    cases h₂ with
    | hash hpair' => exact made_beq_of_pairs hW hpair hpair'
    | _ => rfl
  | closure hpair =>
    cases h₂ with
    | closure hpair' => exact made_beq_of_pairs hW hpair hpair'
    | _ => rfl
  | _ => cases h₂ <;> rfl

/-! ## Operations -/

/-- An operation has related results or fails in both engines. -/
def Agree (final : Stage) (W : World) : Except Machine.Error Value → Except EvalError Value → Prop
  | .ok v, .ok w => v.Related final W w
  | .error _, .error _ => True
  | _, _ => False

end Value

/-- What the machine makes of the operands of an operator; for `<` it takes them the other way
round. -/
def Machine.operate (operator : Operator) (left right : Value) (stamp : Stamp) :
    Except Machine.Error Value :=
  match operator with
  | .add => Machine.arithmetic .add left right stamp
  | .subtract => Machine.arithmetic .sub left right stamp
  | .multiply => Machine.arithmetic .mul left right stamp
  | .divide => Machine.arithmetic .div left right stamp
  | .equal => Value.boolean <$> Machine.comparison .equal left right
  | .notEqual => Value.boolean <$> Machine.comparison .notEqual left right
  | .greaterThan => Value.boolean <$> Machine.comparison .greaterThan left right
  | .lessThan => Value.boolean <$> Machine.comparison .greaterThan right left
  | .not | .negate => .error (.unsupportedOperator .bang left.kind)

namespace Value

variable {final : Stage} {W W' : World} {v v₁ v₂ w w₁ w₂ : Value} {vs ws : List Value}

/-- The operands are neither two integers nor two strings. -/
structure Mixed (left right : Value) : Prop where
  integer : ∀ a b, left = .integer a → right ≠ .integer b
  string : ∀ s t x y, left = .string s x → right ≠ .string t y

theorem Mixed.symm (h : Mixed v₁ v₂) : Mixed v₂ v₁ :=
  ⟨fun a b ha hb => h.integer b a hb ha, fun s t x y hs ht => h.string t s y x ht hs⟩

theorem Mixed.arithmetic (h : Mixed v₁ v₂) (op : Op) (stamp : Stamp) :
    ∃ e, Machine.arithmetic op v₁ v₂ stamp = .error e := by
  unfold Machine.arithmetic
  split
  · exact absurd rfl (h.integer _ _ rfl)
  · exact absurd rfl (h.string _ _ _ _ rfl)
  · exact ⟨_, rfl⟩

theorem Mixed.comparison (h : Mixed v₁ v₂) (op : Op) :
    Machine.comparison op v₁ v₂ =
      match op with
      | .equal => .ok (v₁.same v₂)
      | .notEqual => .ok !(v₁.same v₂)
      | _ => .error (.unorderedTypes v₁.kind v₂.kind) := by
  unfold Machine.comparison
  split
  · exact absurd rfl (h.integer _ _ rfl)
  · exact absurd rfl (h.string _ _ _ _ rfl)
  · rfl

theorem Mixed.applyBinary (h : Mixed w₁ w₂) (operator : Operator) (stamp : Stamp) :
    operator.applyBinary w₁ w₂ stamp =
      match operator with
      | .equal => .ok (.boolean (w₁.same w₂))
      | .notEqual => .ok (.boolean !(w₁.same w₂))
      | operator => .error (.typeMismatch w₁.kind operator w₂.kind) := by
  unfold Operator.applyBinary
  split
  · exact absurd rfl (h.integer _ _ rfl)
  · exact absurd rfl (h.string _ _ _ _ rfl)
  · rfl

theorem agree_operate_mixed (hW : W.Good) (h₁ : v₁.Related final W w₁)
    (h₂ : v₂.Related final W w₂) (hv : Mixed v₁ v₂) (hw : Mixed w₁ w₂) (operator : Operator)
    (stamp stamp' : Stamp) :
    Agree final W (Machine.operate operator v₁ v₂ stamp)
      (operator.applyBinary w₁ w₂ stamp') := by
  rw [hw.applyBinary]
  unfold Machine.operate
  have hsame := same_eq_of_related hW h₁ h₂ hv.string
  cases operator with
  | equal =>
    dsimp only
    rw [hv.comparison, hsame]
    exact .boolean _
  | notEqual =>
    dsimp only
    rw [hv.comparison, hsame]
    exact .boolean _
  | greaterThan =>
    dsimp only
    rw [hv.comparison]
    trivial
  | lessThan =>
    dsimp only
    rw [hv.symm.comparison]
    trivial
  | not => trivial
  | negate => trivial
  | _ =>
    obtain ⟨e, he⟩ := hv.arithmetic _ stamp
    dsimp only
    rw [he]
    trivial

/-- An operator between related operands. -/
theorem agree_operate (hW : W.Good) (h₁ : v₁.Related final W w₁) (h₂ : v₂.Related final W w₂)
    (operator : Operator) (stamp stamp' : Stamp) :
    Agree final W (Machine.operate operator v₁ v₂ stamp)
      (operator.applyBinary w₁ w₂ stamp') := by
  have hmixed : Mixed v₁ v₂ → Mixed w₁ w₂ → _ := fun hv hw =>
    agree_operate_mixed hW h₁ h₂ hv hw operator stamp stamp'
  cases h₁ with
  | integer a =>
    cases h₂ with
    | integer b =>
      cases operator with
      | add => exact .integer _
      | subtract => exact .integer _
      | multiply => exact .integer _
      | divide =>
        simp only [Machine.operate, Machine.arithmetic, Machine.integerArithmetic,
          Operator.applyBinary, Operator.applyIntegers]
        cases floorDiv? a b with
        | some quotient => exact .integer quotient
        | none => trivial
      | not => trivial
      | negate => trivial
      | _ => exact .boolean _
    | _ => exact hmixed (by constructor <;> simp) (by constructor <;> simp)
  | string s s' x =>
    cases h₂ with
    | string t t' y =>
      cases operator with
      | add => exact .string stamp stamp' (x ++ y)
      | _ => trivial
    | _ => exact hmixed (by constructor <;> simp) (by constructor <;> simp)
  | _ => exact hmixed (by constructor <;> simp) (by constructor <;> simp)

theorem agree_negative (h : v.Related final W w) :
    Agree final W (Machine.negative v) (Operator.negate.applyUnary w) := by
  cases h with
  | integer value => exact .integer _
  | _ => trivial

theorem RelatedAll.getD (h : RelatedAll final W vs ws) (i : Nat) :
    Related final W (vs.getD i .null) (ws.getD i .null) := by
  obtain ⟨hlength, hall⟩ := forall₂_iff_getElem?.1 h
  rw [List.getD_eq_getElem?_getD, List.getD_eq_getElem?_getD]
  by_cases hi : i < vs.length
  · rw [List.getElem?_eq_getElem hi, List.getElem?_eq_getElem (hlength ▸ hi)]
    exact hall i _ _ (List.getElem?_eq_getElem hi) (List.getElem?_eq_getElem (hlength ▸ hi))
  · rw [List.getElem?_eq_none (by omega), List.getElem?_eq_none (by omega)]
    exact .null

theorem related_entry? {xs ys : List (Key × Value)} (h : List.Forall₂ (RelatedEntry final W) xs ys)
    (key : Key) :
    Related final W ((Value.entry? key xs).getD .null) ((Value.entry? key ys).getD .null) := by
  induction h with
  | nil => exact .null
  | @cons x y xs ys hfirst _ ih =>
    obtain ⟨hkey, hvalue⟩ := hfirst
    unfold Value.entry? at ih ⊢
    rw [List.find?_cons, List.find?_cons, hkey]
    by_cases heq : y.1 = key
    · simpa [heq] using hvalue
    · simpa [heq] using ih

theorem agree_select (h₁ : v₁.Related final W w₁) (h₂ : v₂.Related final W w₂) :
    Agree final W (Machine.select v₁ v₂) (w₁.select w₂) := by
  cases h₁ with
  | array hpair hlength hall =>
    cases h₂ with
    | integer i =>
      unfold Machine.select Value.select
      dsimp only
      split
      · exact .null
      · exact RelatedAll.getD (forall₂_iff_getElem?.2 ⟨hlength, hall⟩) _
    | _ => trivial
  | hash hpair hkeys hall =>
    unfold Machine.select Value.select
    dsimp only
    rw [h₂.key?_eq]
    cases w₂.key? with
    | some k => exact related_entry? (forall₂_entries hkeys hall) k
    | none => trivial
  | _ => trivial

/-- The values that become the entries of a hash. -/
theorem related_pairsOf (h : RelatedAll final W vs ws) :
    (∃ ps qs, Machine.pairsOf vs = .ok ps ∧ Machine.pairsOf ws = .ok qs ∧
      List.Forall₂ (RelatedEntry final W) ps qs) ∨
    ∃ e e', Machine.pairsOf vs = .error e ∧ Machine.pairsOf ws = .error e' := by
  induction vs using Machine.pairsOf.induct generalizing ws with
  | case1 key value rest k hk ih =>
    obtain ⟨key', _, hkey, hlater, rfl⟩ := List.forall₂_cons_left_iff.1 h
    obtain ⟨value', ws, hvalue, hrest, rfl⟩ := List.forall₂_cons_left_iff.1 hlater
    unfold Machine.pairsOf
    rw [← hkey.key?_eq, hk]
    dsimp only
    rcases ih hrest with ⟨ps, qs, hps, hqs, hall⟩ | ⟨e, e', he, he'⟩
    · rw [hps, hqs]
      exact .inl ⟨_, _, rfl, rfl, .cons ⟨rfl, hvalue⟩ hall⟩
    · rw [he, he']
      exact .inr ⟨e, e', rfl, rfl⟩
  | case2 key value rest hk =>
    obtain ⟨key', _, hkey, hlater, rfl⟩ := List.forall₂_cons_left_iff.1 h
    obtain ⟨value', ws, hvalue, hrest, rfl⟩ := List.forall₂_cons_left_iff.1 hlater
    unfold Machine.pairsOf
    rw [← hkey.key?_eq, hk]
    exact .inr ⟨_, _, rfl, rfl⟩
  | case3 vs hshort =>
    -- there is no pair left
    cases h with
    | nil => exact .inl ⟨[], [], rfl, rfl, .nil⟩
    | cons _ hrest =>
      cases hrest with
      | nil => exact .inl ⟨[], [], rfl, rfl, .nil⟩
      | cons => exact (hshort _ _ _ rfl).elim

theorem related_addEntry {xs ys : List (Key × Value)} {key : Key} (hv : v.Related final W w)
    (h : List.Forall₂ (RelatedEntry final W) xs ys) :
    List.Forall₂ (RelatedEntry final W) (Value.addEntry key v xs) (Value.addEntry key w ys) := by
  induction h with
  | nil => exact .cons ⟨rfl, hv⟩ .nil
  | @cons x y xs ys hfirst hrest ih =>
    obtain ⟨k, x⟩ := x
    obtain ⟨k', y⟩ := y
    obtain ⟨rfl, hxy⟩ : k = k' ∧ x.Related final W y := hfirst
    unfold Value.addEntry
    split
    · exact .cons ⟨rfl, hxy⟩ hrest
    · split
      · exact .cons ⟨rfl, hv⟩ (.cons ⟨rfl, hxy⟩ hrest)
      · exact .cons ⟨rfl, hxy⟩ ih

theorem related_entriesOf {ps qs : List (Key × Value)}
    (h : List.Forall₂ (RelatedEntry final W) ps qs) :
    List.Forall₂ (RelatedEntry final W) (Value.entriesOf ps) (Value.entriesOf qs) := by
  induction h with
  | nil => exact .nil
  | @cons p q ps qs hfirst _ ih =>
    unfold Value.entriesOf at ih ⊢
    rw [List.foldr_cons, List.foldr_cons, hfirst.1]
    exact related_addEntry hfirst.2 ih

end Value

/-! ## Builtin functions -/

namespace Builtin

open Value

variable {final : Stage} {W : World} {v w : Value} {vs ws : List Value}

theorem related_refuse (function : Builtin) (h : v.Related final W w) :
    Related final W (function.refuse v) (function.refuse w) := .refused function h

theorem related_wrongArity (h : RelatedAll final W vs ws) (want : Nat) :
    Related final W (wrongArity vs.length want) (wrongArity ws.length want) := by
  rw [h.length_eq]
  exact .failure _

theorem related_length (h : RelatedAll final W vs ws) :
    (length vs).Related final W (length ws) := by
  match h with
  | .nil => exact related_wrongArity .nil 1
  | .cons hv .nil =>
    have hrefused := related_refuse len hv
    cases hv with
    | array hpair hlength hall =>
      show Related final W (.integer (Int64.ofNat _)) (.integer (Int64.ofNat _))
      rw [hlength]
      exact .integer _
    | string stamp stamp' contents => exact .integer _
    | _ => exact hrefused
  | .cons hv (.cons hv' hrest) =>
    have hwrong := related_wrongArity (.cons hv (.cons hv' hrest)) 1
    cases hv <;> exact hwrong

theorem related_firstElement (h : RelatedAll final W vs ws) :
    (firstElement vs).Related final W (firstElement ws) := by
  match h with
  | .nil => exact related_wrongArity .nil 1
  | .cons hv .nil =>
    have hrefused := related_refuse first hv
    cases hv with
    | array hpair hlength hall =>
      cases forall₂_iff_getElem?.2 ⟨hlength, hall⟩ with
      | nil => exact .null
      | cons hfirst _ => exact hfirst
    | _ => exact hrefused
  | .cons hv (.cons hv' hrest) =>
    have hwrong := related_wrongArity (.cons hv (.cons hv' hrest)) 1
    cases hv <;> exact hwrong

theorem related_getLastD {d d' : Value} (h : RelatedAll final W vs ws)
    (hd : d.Related final W d') : (vs.getLastD d).Related final W (ws.getLastD d') := by
  induction h generalizing d d' with
  | nil => exact hd
  | cons hfirst _ ih =>
    rw [List.getLastD_cons, List.getLastD_cons]
    exact ih hfirst

theorem related_lastElement (h : RelatedAll final W vs ws) :
    (lastElement vs).Related final W (lastElement ws) := by
  match h with
  | .nil => exact related_wrongArity .nil 1
  | .cons hv .nil =>
    have hrefused := related_refuse last hv
    cases hv with
    | array hpair hlength hall =>
      exact related_getLastD (forall₂_iff_getElem?.2 ⟨hlength, hall⟩) .null
    | _ => exact hrefused
  | .cons hv (.cons hv' hrest) =>
    have hwrong := related_wrongArity (.cons hv (.cons hv' hrest)) 1
    cases hv <;> exact hwrong

/-- A builtin function that makes nothing new. -/
theorem related_of_made {host host' : Host} (hW : W.Good) (hmade : W.made ≤ host.made)
    (hhost : W.store.host.made ≤ host'.made) (h : v.Related final W w) :
    ∃ W', (∀ n, W.Le n W') ∧ W'.Good ∧ W'.store = { W.store with host := host' } ∧
      W'.made ≤ host.made ∧ v.Related final W' w :=
  ⟨W.withHost host', World.le_withHost hhost, hW.withHost hhost, rfl, hmade,
    h.mono (World.le_withHost hhost 0).toExt⟩

/-- A builtin function that makes a new array. -/
theorem related_of_new {host : Host} (hW : W.Good) (hmade : W.made ≤ host.made)
    (h : RelatedAll final W vs ws) :
    ∃ W', (∀ n, W.Le n W') ∧ W'.Good ∧
      W'.store = { W.store with host := W.store.host.used } ∧ W'.made ≤ host.used.made ∧
      Related final W' (.array host.stamp vs) (.array W.store.host.stamp ws) := by
  have hle := World.le_allocate (W := W) hmade
  exact ⟨W.allocate host.made, hle, hW.allocate hmade, rfl, Nat.le_refl _,
    related_array (.inr ⟨rfl, rfl⟩) (h.mono (hle 0).toExt)⟩

theorem related_restElements {host : Host} (hW : W.Good) (hmade : W.made ≤ host.made)
    (h : RelatedAll final W vs ws) :
    ∃ W', (∀ n, W.Le n W') ∧ W'.Good ∧
      W'.store = { W.store with host := (restElements W.store.host ws).2 } ∧
      W'.made ≤ (restElements host vs).2.made ∧
      (restElements host vs).1.Related final W' (restElements W.store.host ws).1 := by
  match h with
  | .nil => exact related_of_made hW hmade (Nat.le_refl _) (related_wrongArity .nil 1)
  | .cons hv .nil =>
    have hrefused := related_refuse rest hv
    cases hv with
    | array hpair hlength hall =>
      cases forall₂_iff_getElem?.2 ⟨hlength, hall⟩ with
      | nil => exact related_of_made hW hmade (Nat.le_refl _) .null
      | cons _ hrest => exact related_of_new hW hmade hrest
    | _ => exact related_of_made hW hmade (Nat.le_refl _) hrefused
  | .cons hv (.cons hv' hrest) =>
    have hwrong := related_wrongArity (.cons hv (.cons hv' hrest)) 1
    cases hv with
    | array hpair hlength hall =>
      cases forall₂_iff_getElem?.2 ⟨hlength, hall⟩ <;>
        exact related_of_made hW hmade (Nat.le_refl _) hwrong
    | _ => exact related_of_made hW hmade (Nat.le_refl _) hwrong

theorem related_pushElement {host : Host} (hW : W.Good) (hmade : W.made ≤ host.made)
    (h : RelatedAll final W vs ws) :
    ∃ W', (∀ n, W.Le n W') ∧ W'.Good ∧
      W'.store = { W.store with host := (pushElement W.store.host ws).2 } ∧
      W'.made ≤ (pushElement host vs).2.made ∧
      (pushElement host vs).1.Related final W' (pushElement W.store.host ws).1 := by
  match h with
  | .nil => exact related_of_made hW hmade (Nat.le_refl _) (related_wrongArity .nil 2)
  | .cons hv .nil =>
    have hwrong := related_wrongArity (.cons hv .nil) 2
    cases hv <;> exact related_of_made hW hmade (Nat.le_refl _) hwrong
  | .cons hv (.cons hv' .nil) =>
    have hrefused := related_refuse push hv
    cases hv with
    | array hpair hlength hall =>
      have hall := forall₂_iff_getElem?.2 ⟨hlength, hall⟩
      exact related_of_new hW hmade (List.rel_append hall (.cons hv' .nil))
    | _ => exact related_of_made hW hmade (Nat.le_refl _) hrefused
  | .cons hv (.cons hv' (.cons hv'' hrest)) =>
    have hwrong := related_wrongArity (.cons hv (.cons hv' (.cons hv'' hrest))) 2
    cases hv <;> exact related_of_made hW hmade (Nat.le_refl _) hwrong

/-- A builtin function answers related arguments with related values. -/
theorem related_call {host : Host} (function : Builtin) (hW : W.Good) (hmade : W.made ≤ host.made)
    (h : RelatedAll final W vs ws) :
    ∃ W', (∀ n, W.Le n W') ∧ W'.Good ∧
      W'.store = { W.store with host := (function.call ws W.store.host).2 } ∧
      W'.made ≤ (function.call vs host).2.made ∧
      (function.call vs host).1.Related final W' (function.call ws W.store.host).1 := by
  cases function with
  | len => exact related_of_made hW hmade (Nat.le_refl _) (related_length h)
  | puts =>
    refine related_of_made hW ?_ ?_ .null
    · exact Nat.le_trans hmade (Nat.le_of_eq (made_printAll host vs).symm)
    · exact Nat.le_of_eq (made_printAll W.store.host ws).symm
  | first => exact related_of_made hW hmade (Nat.le_refl _) (related_firstElement h)
  | last => exact related_of_made hW hmade (Nat.le_refl _) (related_lastElement h)
  | rest => exact related_restElements hW hmade h
  | push => exact related_pushElement hW hmade h

end Builtin

end Scriptlet
