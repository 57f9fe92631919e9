import Scriptlet.Codegen.Compile
import Scriptlet.Proofs.Inversion

/-!
# What compilation may do

Compilation is made of a few operations, and a fact about what a part of it leaves alone, or about
the errors that it cannot come to, only depends on the operations that the part is made of.
`Gen.Effects` stands for such a fact: changes of the state, closed under doing one after the other,
and errors.  `Gen.Within` says that a step does not go beyond them, whether it comes to a result or
fails.

The operations are sorted by what they may do.

* `Effects.Writes`: the code in the buffers may be changed.
* `Effects.Binds`: the tables may be changed.
* `Effects.Pools`: a constant may be added.
* `Effects.Overflows`: a number may turn out not to fit.
* `Effects.Unlimited`: all of this may happen, and any error.

There is one rule for each operation of compilation, which asks for what the operation does and for
nothing more, and `Gen.stmts_within` is their sum for whole programs.  The effects that the rules
are used for are defined where they are needed; those of steps that cannot fail and of steps that
leave the buffers alone are at the end.
-/

namespace Scriptlet

namespace Gen

/-- The state after a step, whether it came to a result or failed. -/
def after {α : Type} : EStateM.Result CompileError Compiler α → Compiler
  | .ok _ c => c
  | .error _ c => c

/-- What a step of compilation may do: how it may change the state, and with which errors it may
fail. -/
structure Effects where
  changes : Compiler → Compiler → Prop
  errors : CompileError → Prop
  refl : ∀ c, changes c c
  trans : ∀ {c c₁ c₂}, changes c c₁ → changes c₁ c₂ → changes c c₂

namespace Effects

/-- The buffers may be changed. -/
class Writes (E : Effects) : Prop where
  buffers : ∀ c buffers, E.changes c { c with buffers := buffers }

/-- The tables may be changed. -/
class Binds (E : Effects) : Prop where
  tables : ∀ c tables, E.changes c { c with tables := tables }

/-- A constant may be added. -/
class Pools (E : Effects) : Prop where
  constants : ∀ c value, E.changes c { c with constants := c.constants.push value }

/-- A number may turn out not to fit. -/
class Overflows (E : Effects) : Prop where
  overflow : ∀ resource count, E.errors (.overflow resource count)

/-- Anything may happen that compilation does. -/
class Unlimited (E : Effects) : Prop extends E.Writes, E.Binds, E.Pools where
  error : ∀ e, E.errors e

instance {E : Effects} [E.Unlimited] : E.Overflows := ⟨fun _ _ => Unlimited.error _⟩

end Effects

variable {α β : Type} {E : Effects} {x : Gen α}

/-- A step does nothing but what it may do. -/
def Within (E : Effects) (x : Gen α) : Prop := ∀ c,
  match x c with
  | .ok _ c' => E.changes c c'
  | .error e c' => E.errors e ∧ E.changes c c'

theorem Within.after (h : Within E x) (c : Compiler) : E.changes c (after (x c)) := by
  have hx := h c
  cases hresult : x c with
  | ok a c' =>
    rw [hresult] at hx
    exact hx
  | error e c' =>
    rw [hresult] at hx
    exact hx.2

theorem Within.error {c c' : Compiler} {e : CompileError} (h : Within E x)
    (hx : x c = .error e c') : E.errors e := by
  have hresult := h c
  rw [hx] at hresult
  exact hresult.1

/-! ## Operations -/

theorem within_pure (a : α) : Within E (pure a) := E.refl

theorem within_throw {e : CompileError} (h : E.errors e) : Within E (throw e : Gen α) :=
  fun c => ⟨h, E.refl c⟩

theorem within_get : Within E (get : Gen Compiler) := E.refl

theorem within_position : Within E position := E.refl

/-- One step behind another. -/
theorem Within.bind {f : α → Gen β} (hx : Within E x) (hf : ∀ a, Within E (f a)) :
    Within E (x >>= f) := by
  intro c
  have hfirst := hx c
  cases hresult : x c with
  | error e c₁ =>
    rw [hresult] at hfirst
    rw [bind_of_error hresult]
    exact hfirst
  | ok a c₁ =>
    rw [hresult] at hfirst
    rw [bind_of_ok hresult]
    have hsecond := hf a c₁
    cases hresult' : f a c₁ with
    | ok b c₂ =>
      rw [hresult'] at hsecond
      exact E.trans hfirst hsecond
    | error e c₂ =>
      rw [hresult'] at hsecond
      exact ⟨hsecond.1, E.trans hfirst hsecond.2⟩

theorem within_checkLimit [E.Overflows] (resource : Resource) (count : Nat) :
    Within E (checkLimit resource count) := by
  unfold checkLimit
  split
  · exact within_pure ()
  · exact within_throw (Effects.Overflows.overflow resource count)

theorem within_modifyBuffer [E.Writes] (f : Buffer → Buffer) : Within E (modifyBuffer f) :=
  fun c => Effects.Writes.buffers c _

theorem within_modifyTable [E.Binds] (f : SymbolTable → SymbolTable) : Within E (modifyTable f) :=
  fun c => Effects.Binds.tables c _

theorem within_emit [E.Writes] (i : Instruction) : Within E (emit i) := within_modifyBuffer _

theorem within_emitAt [E.Writes] (i : Instruction) : Within E (emitAt i) :=
  within_position.bind fun p => (within_emit i).bind fun _ => within_pure p

/-- An operator that has no instruction is an error. -/
theorem within_emitOperator [E.Writes] {operator : Operator} {i? : Option Instruction}
    (h : i? = none → E.errors (.unknownOperator operator)) :
    Within E (emitOperator operator i?) := by
  cases i? with
  | none => exact within_throw (h rfl)
  | some i => exact within_emit i

theorem within_patchHere [E.Writes] [E.Overflows] (jump : Nat) : Within E (patchHere jump) :=
  within_position.bind fun target =>
    (within_checkLimit .bytes target).bind fun _ => within_modifyBuffer _

theorem within_addConstant [E.Pools] [E.Overflows] (make : Stamp → Value) :
    Within E (addConstant make) := by
  refine within_get.bind fun c => (within_checkLimit _ _).bind fun _ => ?_
  have hpush : Within E (modify fun c' => { c' with
      constants := c'.constants.push (make (.constant c.constants.size)) }) :=
    fun c' => Effects.Pools.constants c' _
  exact hpush.bind fun _ => within_pure _

/-- A name that stands for nothing is an error. -/
theorem within_resolve [E.Binds] {name : String} (h : E.errors (.undefinedVariable name)) :
    Within E (resolve name) := by
  intro c
  unfold resolve
  cases c.tables.resolve name with
  | mk found tables =>
    cases found with
    | some symbol => exact Effects.Binds.tables c tables
    | none => exact ⟨h, Effects.Binds.tables c tables⟩

theorem within_loadAll [E.Writes] (symbols : List Symbol) : Within E (loadAll symbols) := by
  induction symbols with
  | nil => exact within_pure ()
  | cons symbol rest ih => exact (within_emit _).bind fun _ => ih

theorem within_define [E.Binds] (name : String) : Within E (define name) :=
  within_get.bind fun _ => (within_modifyTable _).bind fun _ => within_pure _

theorem within_defineAll [E.Binds] (names : List String) : Within E (defineAll names) := by
  induction names with
  | nil => exact within_pure ()
  | cons name rest ih => exact (within_define name).bind fun _ => ih

theorem within_enter [E.Writes] [E.Binds] : Within E enter := fun c =>
  E.trans (Effects.Binds.tables c c.tables.enclose) (Effects.Writes.buffers _ (c.buffers.enter {}))

theorem within_leave [E.Writes] [E.Binds] : Within E leave := fun c =>
  E.trans (Effects.Binds.tables c c.tables.leave) (Effects.Writes.buffers _ c.buffers.leave)

theorem within_bind [E.Writes] [E.Binds] [E.Overflows] (name : String) :
    Within E (Gen.bind name) := by
  refine (within_define name).bind fun symbol => ?_
  split
  · exact (within_checkLimit _ _).bind fun _ => within_emit _
  · exact (within_checkLimit _ _).bind fun _ => within_emit _

theorem within_closeBranch [E.Writes] (start : Nat) : Within E (closeBranch start) := by
  refine within_get.bind fun c => ?_
  dsimp only
  split
  · exact within_modifyBuffer _
  · exact within_emit _

theorem within_closeBody [E.Writes] : Within E closeBody := by
  have hend : Within E (do
      if !(← get).buffers.inner.endsIn .returnValue then
        emit .returnNull) := by
    refine within_get.bind fun c => ?_
    split
    · exact within_emit _
    · exact within_pure _
  refine within_get.bind fun c => ?_
  split
  · exact (within_modifyBuffer _).bind fun _ => hend
  · exact hend

theorem within_openFunction [E.Writes] [E.Binds] (name : Option String)
    (parameters : List String) : Within E (openFunction name parameters) := by
  refine within_enter.bind fun _ => ?_
  cases name with
  | none => exact within_defineAll parameters
  | some name => exact (within_modifyTable _).bind fun _ => within_defineAll parameters

/-- The part of closing a function that comes behind its code. -/
theorem within_closure [E.Writes] [E.Pools] [E.Overflows] (parameters : Nat) (code : Code)
    (table : SymbolTable) : Within E (do
      checkLimit .locals table.definitions
      checkLimit .parameters parameters
      checkLimit .captures table.captures.size
      loadAll table.captures.toList
      let index ← addConstant fun stamp => .routine stamp ⟨code, table.definitions, parameters⟩
      emit (.closure index table.captures.size)) :=
  (within_checkLimit _ _).bind fun _ => (within_checkLimit _ _).bind fun _ =>
    (within_checkLimit _ _).bind fun _ => (within_loadAll _).bind fun _ =>
      (within_addConstant _).bind fun _ => within_emit _

theorem within_closeFunction [E.Writes] [E.Binds] [E.Pools] [E.Overflows] (parameters : Nat) :
    Within E (closeFunction parameters) :=
  within_closeBody.bind fun _ => within_leave.bind fun closed =>
    within_closure parameters closed.1 closed.2

/-! ## Trees -/

mutual

theorem expr_within [E.Unlimited] : (e : Expr) → Within E (expr e)
  | .identifier name => (within_resolve (Effects.Unlimited.error _)).bind fun _ => within_emit _
  | .integer value => (within_addConstant _).bind fun _ => within_emit _
  | .boolean value => within_emit _
  | .string contents => (within_addConstant _).bind fun _ => within_emit _
  | .array elements => (exprs_within elements).bind fun _ =>
      (within_checkLimit _ _).bind fun _ => within_emit _
  | .hash pairs => (entries_within pairs).bind fun _ =>
      (within_checkLimit _ _).bind fun _ => within_emit _
  | .unary operator operand => (expr_within operand).bind fun _ =>
      within_emitOperator fun _ => Effects.Unlimited.error _
  | .binary left operator right => by
    unfold expr
    split
    · exact (expr_within right).bind fun _ =>
        (expr_within left).bind fun _ => within_emit _
    · exact (expr_within left).bind fun _ =>
        (expr_within right).bind fun _ => within_emitOperator fun _ => Effects.Unlimited.error _
  | .conditional condition consequence alternative => by
    unfold expr
    refine (expr_within condition).bind fun _ => (within_emitAt _).bind fun _ => ?_
    refine within_position.bind fun _ => (stmts_within consequence).bind fun _ => ?_
    refine (within_closeBranch _).bind fun _ => (within_emitAt _).bind fun _ => ?_
    refine (within_patchHere _).bind fun _ => ?_
    cases alternative with
    | none => exact (within_emit _).bind fun _ => within_patchHere _
    | some alternative =>
      refine within_position.bind fun _ => (stmts_within alternative).bind fun _ => ?_
      exact (within_closeBranch _).bind fun _ => within_patchHere _
  | .function name parameters body => (within_openFunction name parameters).bind fun _ =>
      (stmts_within body).bind fun _ => within_closeFunction _
  | .call callee arguments => (expr_within callee).bind fun _ =>
      (exprs_within arguments).bind fun _ =>
        (within_checkLimit _ _).bind fun _ => within_emit _
  | .index collection key => (expr_within collection).bind fun _ =>
      (expr_within key).bind fun _ => within_emit _

theorem exprs_within [E.Unlimited] : (es : List Expr) → Within E (exprs es)
  | [] => within_pure ()
  | e :: rest => (expr_within e).bind fun _ => exprs_within rest

theorem entries_within [E.Unlimited] : (pairs : List (Expr × Expr)) →
    Within E (entries pairs)
  | [] => within_pure ()
  | (key, value) :: rest => by
    unfold entries
    split
    · exact (expr_within key).bind fun _ =>
        (expr_within value).bind fun _ => entries_within rest
    · exact within_throw (Effects.Unlimited.error _)

theorem stmt_within [E.Unlimited] : (s : Stmt) → Within E (stmt s)
  | .bind name value => (expr_within value).bind fun _ => within_bind name
  | .ret value => (expr_within value).bind fun _ => within_emit _
  | .eval value => (expr_within value).bind fun _ => within_emit _

/-- Compiling statements does no more than what its operations do, all errors included. -/
theorem stmts_within [E.Unlimited] : (body : List Stmt) → Within E (stmts body)
  | [] => within_pure ()
  | s :: rest => (stmt_within s).bind fun _ => stmts_within rest

end

/-! ## Steps that cannot fail -/

namespace Effects

/-- Changing the state in any way, without an error. -/
def unfailing : Effects where
  changes _ _ := True
  errors _ := False
  refl _ := trivial
  trans _ _ := trivial

instance : unfailing.Writes := ⟨fun _ _ => trivial⟩

instance : unfailing.Binds := ⟨fun _ _ => trivial⟩

end Effects

theorem Within.ne_error {c c' : Compiler} {e : CompileError} (h : Within .unfailing x) :
    x c ≠ .error e c' :=
  fun hx => h.error hx

/-! ## Steps that leave the buffers alone -/

namespace Effects

/-- Changing anything but the buffers. -/
def sparing : Effects where
  changes c c' := c'.buffers = c.buffers
  errors _ := True
  refl _ := rfl
  trans h h' := h'.trans h

instance : sparing.Binds := ⟨fun _ _ => rfl⟩

instance : sparing.Pools := ⟨fun _ _ => rfl⟩

instance : sparing.Overflows := ⟨fun _ _ => trivial⟩

end Effects

theorem Within.buffers_eq {c c' : Compiler} {e : CompileError} (h : Within .sparing x)
    (hx : x c = .error e c') : c'.buffers = c.buffers := by
  have hbuffers := h.after c
  rw [hx] at hbuffers
  exact hbuffers

end Gen

end Scriptlet
