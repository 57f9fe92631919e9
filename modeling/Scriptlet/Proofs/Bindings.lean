import Scriptlet.Proofs.Pieces

/-!
# Bindings beside slots

A `let` of the evaluator binds a name in the environment of the running call; compiled code puts the
value into a slot.  What both engines find under any name afterwards has to agree, for names that
were there before as well as for the new one.

* `Fresh` is what has to be known about the names that statements are going to bind: they are in
  scope, but nothing is bound to them yet.
* `Runs.define` and `Linked.bindGlobal` are about a state in which the value is in its slot.
* `Stores.outcome` is the step into that state.
-/

namespace Scriptlet

open Code Machine Exec Value

variable {final s s' s₁ : Stage} {k n ip env p : Nat} {W W' W₁ : World} {m m₁ m' : Machine}
  {v w : Value} {xs ys : List Value} {captures : List Symbol} {is : List Instruction}
  {name : String} {first : Stmt} {rest body : Program} {mayBind mayReturn : Bool}

/-! ## Names that are going to be bound -/

namespace World

/-- The world in which a name has been bound; the global slots are what they are afterwards. -/
def bound (W : World) (env : Nat) (name : String) (w : Value) (globals : Array Value) : World :=
  { W with store := W.store.set env name w, globals := globals }

variable {globals : Array Value}

theorem Good.bound (h : W.Good) (hscope : W.scope env name) : (W.bound env name w globals).Good :=
  ⟨h.bounded, h.right, h.left, h.names.set hscope⟩

/-- A name that is bound for the first time. -/
theorem le_bound (hnew : W.store.get? env name = none) (hglobals : 0 < env → globals = W.globals) :
    W.Le env (W.bound env name w globals) where
  next := Nat.le_of_eq (Store.next_set ..).symm
  pairs := id
  scope _ := Iff.rfl
  get? hget := Store.get?_set_of_some hnew hget
  made := Nat.le_refl _
  host := Nat.le_refl _
  newer := .inl
  same _ henv := Store.get?_set_of_lt henv
  globals := hglobals

end World

/-- The names that statements bind are in scope and have not been bound; those that are bound in
functions inside of the statements are not in scope. -/
structure Fresh (W : World) (s : Stage) (env : Nat) (body : Program) : Prop where
  lets : ∀ x ∈ Program.lets body, W.scope env x ∧ W.store.get? env x = none
  nodup : (Program.lets body).Nodup
  nested : W.Owns env (Program.nested body)
  unbound : s.tables.outer = [] → s.Unbound body

namespace Fresh

theorem value (h : Fresh W s env (first :: rest)) : W.Owns env first.value.binders := h.nested.left

/-- Behind the first statement, as long as it has not bound anything. -/
theorem after (h : Fresh W s env (first :: rest)) (hcode : StmtCode s p first is s₁)
    (hregular : first.isRegular mayBind mayReturn = true) (hle : W.Le W.store.next W')
    (henv : env < W.store.next) : Fresh W' s₁ env rest := by
  have hlets := h.lets
  have hnodup := h.nodup
  rw [Program.lets_cons] at hlets hnodup
  refine ⟨fun x hx => ?_, (List.nodup_append.1 hnodup).2.1, h.nested.right.mono hle.toExt henv, ?_⟩
  · obtain ⟨hscope, hget⟩ := hlets x (List.mem_append_right _ hx)
    exact ⟨(hle.scope henv).2 hscope, (hle.same x henv).trans hget⟩
  · intro houter
    refine ((h.unbound ?_).rest hcode hregular).1
    have hlength := (hcode.widens hregular).outer.length_eq
    rw [houter] at hlength
    exact List.eq_nil_of_length_eq_zero hlength

theorem bound {globals : Array Value} (h : Fresh W s env body)
    (hname : name ∉ Program.lets body) : Fresh (W.bound env name w globals) s env body := by
  refine ⟨fun x hx => ?_, h.nodup, ⟨h.nested.nodup, h.nested.unscoped, h.nested.unhidden⟩,
    h.unbound⟩
  obtain ⟨hscope, hget⟩ := h.lets x hx
  refine ⟨hscope, (Store.get?_set_of_ne ?_).trans hget⟩
  rintro rfl
  exact hname hx

end Fresh

/-- What the table of the program knows behind a statement, it knows at the end. -/
theorem StmtsCode.keeps_outermost (h : StmtsCode s p body is s')
    (hregular : Program.isRegular mayBind mayReturn body = true)
    (hunbound : s.tables.outer = [] → s.Unbound body) :
    s.tables.outermost.Keeps s'.tables.outermost := by
  by_cases houter : s.tables.outer = []
  · obtain ⟨hkeeps, houter'⟩ := h.keeps hregular (hunbound houter)
    unfold Nest.outermost
    rw [houter, houter']
    exact hkeeps
  · rw [(h.widens hregular).outermost (.inr houter)]
    exact id

/-! ## A value in its slot -/

theorem Chain.Sound.enclosed_iff {chain : Chain} (h : Chain.Sound chain) :
    chain.inner.enclosed = true ↔ chain.outer ≠ [] := by
  obtain ⟨inner, outer⟩ := chain
  cases outer with
  | nil =>
    have henclosed : inner.enclosed = false := h.enclosed
    simp [henclosed]
  | cons table outer =>
    have henclosed : inner.enclosed = true := h.2.1
    simp [henclosed]

/-- Both engines have bound a name: the machine has the value in the next slot. -/
theorem Runs.define (h : Runs final k W s captures env m) (hext : W.Ext W')
    (hstands : m.Stands ip xs m') (hsound : (s.define name).Sound)
    (hnames : (s.define name).tables.outermost.Keeps final.tables.outermost)
    (hbound : W'.store.get? env name = some w) (hrelated : v.Related final W' w)
    (hold : ∀ i < s.tables.inner.definitions,
      xs[m.frame.base + i]? = m.slots[m.frame.base + i]?)
    (hnew : s.tables.inner.enclosed = true →
      xs[m.frame.base + s.tables.inner.definitions]? = some v) :
    Runs final k W' (s.define name) captures env m' := by
  have hget : ∀ x, (s.define name).tables.inner.get? x =
      if name = x then some (s.tables.inner.nextSymbol name) else s.tables.inner.get? x :=
    s.tables.inner.get?_define name
  refine
    { sound := hsound
      level := h.level
      inside := Nat.lt_of_lt_of_le h.inside hext.next
      unhidden := fun x hx => h.unhidden x ((hext.scope h.inside).1 hx)
      room := hstands.depth_eq ▸ h.room
      names := hnames
      locals := ?locals
      itself := ?itself
      captured := ?captured
      globals := ?globals }
  case locals =>
    intro x symbol hx hplace
    rw [hstands.slots, hstands.frame]
    rw [hget] at hx
    split at hx
    · next heq =>
      subst heq
      cases hx
      have henclosed : s.tables.inner.enclosed = true := by
        unfold SymbolTable.nextSymbol at hplace
        by_contra hne
        simp [hne] at hplace
      exact ⟨v, w, hnew henclosed, hbound, hrelated⟩
    · obtain ⟨v', w', hv', hw', hrelated'⟩ := h.locals hx hplace
      have hholds := h.sound.tables.sound.holds hx
      unfold SymbolTable.Holds at hholds
      rw [hplace] at hholds
      exact ⟨v', w', (hold _ hholds.2).trans hv', hext.get? hw', hrelated'.mono hext⟩
  case itself =>
    intro x symbol hx hplace
    rw [hget] at hx
    split at hx
    · cases hx
      unfold SymbolTable.nextSymbol at hplace
      split at hplace <;> cases hplace
    · obtain ⟨w', hw', hrelated'⟩ := h.itself hx hplace
      rw [hstands.frame]
      exact ⟨w', hext.get? hw', hrelated'.mono hext⟩
  case captured =>
    intro i c hc
    obtain ⟨v', w', hv', hw', hrelated'⟩ := h.captured hc
    rw [hstands.frame]
    exact ⟨v', w', hv', hext.get? hw', hrelated'.mono hext⟩
  case globals =>
    intro x symbol hx hplace
    have hearlier : s.tables.outermost.get? x = some symbol → ∃ w,
        W'.store.get? env x = some w ∧ W'.store.get? 0 x = some w := by
      intro hx
      obtain ⟨w', hw', hw₀⟩ := h.globals hx hplace
      exact ⟨w', hext.get? hw', hext.get? hw₀⟩
    by_cases houter : s.tables.outer = []
    · have hinner : (s.define name).tables.outermost = (s.define name).tables.inner := by
        unfold Nest.outermost
        rw [show (s.define name).tables.outer = [] from houter]
        rfl
      rw [hinner, hget] at hx
      split at hx
      · next heq =>
        subst heq
        obtain rfl := h.level.1 houter
        exact ⟨w, hbound, hbound⟩
      · refine hearlier ?_
        unfold Nest.outermost
        rw [houter]
        exact hx
    · have hsame : (s.define name).tables.outermost = s.tables.outermost :=
        (Chain.widens_define s.tables name).outermost (.inr houter)
      rw [hsame] at hx
      exact hearlier hx

/-- Both engines have bound a name of the program. -/
theorem Linked.bindGlobal {symbol : Symbol} (h : Linked final W m) (hnext : Next m m')
    (hglobals : m'.globals = m.globals.setIfInBounds symbol.index v)
    (hmade : m.host.made ≤ m'.host.made)
    (hname : final.tables.outermost.get? name = some symbol) (hplace : symbol.place = .globalSlot)
    (hindex : symbol.index < m.globals.size) (hscope : W.scope 0 name)
    (hnew : W.store.get? 0 name = none)
    (hrelated : v.Related final (W.bound 0 name w m'.globals) w) :
    Linked final (W.bound 0 name w m'.globals) m' := by
  have hle : W.Le 0 (W.bound 0 name w m'.globals) := World.le_bound hnew nofun
  obtain ⟨hsound, hconstants⟩ := h.sound.steps (.single hnext)
  refine
    { good := h.good.bound hscope
      made := Nat.le_trans h.made hmade
      root := Nat.lt_of_lt_of_le h.root hle.next
      slots := rfl
      globals := ?_
      constants := hconstants.trans h.constants
      table := h.table
      sound := hsound }
  intro x symbol' w' hget hplace' hw'
  by_cases hx : name = x
  · subst hx
    cases hname.symm.trans hget
    have hself : (W.store.set 0 name w).get? 0 name = some w := Store.get?_set_self h.root
    cases hself.symm.trans hw'
    refine ⟨v, ?_, hrelated⟩
    rw [hglobals]
    exact Array.getElem?_setIfInBounds_self_of_lt hindex
  · have hearlier : W.store.get? 0 x = some w' := (Store.get?_set_of_ne hx).symm.trans hw'
    obtain ⟨v', hv', hrelated'⟩ := h.globals hget hplace' hearlier
    refine ⟨v', ?_, hrelated'.mono hle.toExt⟩
    rw [hglobals, Array.getElem?_setIfInBounds_ne]
    · exact hv'
    · exact fun hindices => hx (h.table.separate hname hget hplace hplace' hindices)

/-! ## Storing a value -/

/-- What a statement may have done to the stack: if nothing was bound, it is as it was before; else
the locals of the running call may have changed, but nothing below them. -/
structure Kept (mayBind : Bool) (m : Machine) (xs : List Value) : Prop where
  same : mayBind = false → xs = m.slots
  length : xs.length = m.slots.length
  below : xs.take m.frame.base = m.slots.take m.frame.base

theorem Kept.refl (mayBind : Bool) (m : Machine) : Kept mayBind m m.slots :=
  ⟨fun _ => rfl, rfl, rfl⟩

theorem Kept.trans (h : Kept mayBind m xs) (hstands : m.Stands ip xs m₁)
    (h' : Kept mayBind m₁ ys) : Kept mayBind m ys := by
  have hbelow := h'.below
  rw [hstands.slots, hstands.frame] at hbelow
  refine ⟨fun hbind => ?_, ?_, hbelow.trans h.below⟩
  · rw [h'.same hbind, hstands.slots, h.same hbind]
  · rw [h'.length, hstands.slots, h.length]

/-- The value of a `let` is on top of the stack, and the code before it was compiled up to the stage
`s`. -/
structure Stores (final : Stage) (k : Nat) (s : Stage) (captures : List Symbol) (env : Nat)
    (name : String) (ip : Nat) (W : World) (m : Machine) (v w : Value) (W₁ : World)
    (m₁ : Machine) : Prop where
  runs : Runs final k W s captures env m
  linked : Linked final W₁ m₁
  le : W.Le W.store.next W₁
  stands : m.Stands ip (m.slots ++ [v]) m₁
  scope : W₁.scope env name
  unbound : W₁.store.get? env name = none
  sound : (s.define name).Sound
  names : (s.define name).tables.outermost.Keeps final.tables.outermost
  related : ∀ {W₂}, W₁.Ext W₂ → W₂.store.get? env name = some w → v.Related final W₂ w

/-- The value is in its slot, and the evaluator has bound the name. -/
structure Binds (final : Stage) (k : Nat) (s : Stage) (captures : List Symbol) (env : Nat)
    (name : String) (ip : Nat) (m : Machine) (w : Value) (W₁ W₂ : World) (m₂ : Machine) :
    Prop where
  linked : Linked final W₂ m₂
  le : W₁.Le env W₂
  world : ∃ globals, W₂ = W₁.bound env name w globals
  runs : Runs final k W₂ (s.define name) captures env m₂
  slots : ∃ xs, Kept true m xs ∧ m.Stands ip xs m₂

theorem settles_bind {globals : Array Value} :
    Eval.Settles k (fun _ => Eval.bind env name w) W.store () (W.bound env name w globals).store :=
  Eval.settles_of_eq fun _ => rfl

namespace Stores

variable {symbol : Symbol} {globals : Array Value}

theorem get?_bound (h : Stores final k s captures env name ip W m v w W₁ m₁) :
    (W₁.bound env name w globals).store.get? env name = some w :=
  Store.get?_set_self (Nat.lt_of_lt_of_le h.runs.inside h.le.next)

/-- In a function. -/
theorem outcome_local (h : Stores final k s captures env name ip W m v w W₁ m₁)
    (henclosed : s.tables.inner.enclosed = true)
    (hfetch : m₁.frame.routine.code.fetch m₁.frame.ip =
      .instruction (.setLocal s.tables.inner.definitions)) :
    Outcome k (fun _ => Eval.bind env name w) W₁ m₁ fun _ =>
      Binds final k s captures env name (ip + 2) m w W₁ := by
  have hroot : 0 < env := by
    refine Nat.pos_of_ne_zero fun henv => ?_
    exact h.runs.sound.tables.enclosed_iff.1 henclosed (h.runs.level.2 henv)
  have hle : W₁.Le env (W₁.bound env name w W₁.globals) := World.le_bound h.unbound fun _ => rfl
  have hrelated := h.related hle.toExt h.get?_bound
  have hheld := h.linked.holding h.stands.slots (.setLocal s.tables.inner.definitions)
  have hbase : m₁.frame.base = m.frame.base := by rw [h.stands.frame]
  -- the slot is one of those that the frame has for its locals
  have hslot : m.frame.base + s.tables.inner.definitions < m.slots.length ∧
      m.slots.length < stackSize := by
    obtain ⟨htop, hindex⟩ := h.linked.sound.above hfetch
    have hindex := hindex _ (.inr rfl)
    have hsp : m₁.sp = (m.slots ++ [v]).length := hheld.sp_eq
    have hmax : m₁.sp ≤ stackSize := hheld.sp
    rw [List.length_append, List.length_singleton] at hsp
    change _ + 1 ≤ m₁.sp at htop
    omega
  refine .fetched hfetch (ensures_bind (ensures_localSlot ?_ ?_))
  · show m₁.frame.base + _ < stackSize
    omega
  refine ensures_bind (hheld.pop fun m₂ h₂ hhost _ => ensures_bind (ensures_get ?_))
  rw [if_pos (by rw [h₂.size]; show m₁.frame.base + _ < stackSize; omega)]
  refine ensures_modify fun hnext => ?_
  have h₃ : Holding (behind m₁ _) (m.slots.set (m₁.frame.base + s.tables.inner.definitions) v)
      { m₂ with stack := m₂.stack.setIfInBounds (m₁.frame.base + s.tables.inner.definitions) v } :=
    h₂.setStack
  have hstands := h.stands.trans h₃.stands
  rw [h.stands.ip_eq] at hstands
  have hlinked := (h.linked.stays hnext h₃).grow hle hroot (h.linked.good.bound h.scope)
    (Nat.le_trans h.linked.made h₃.made)
  have hruns := h.runs.define (h.le.toExt.trans hle.toExt) hstands h.sound h.names h.get?_bound
    hrelated
    (fun i hi => by rw [hbase]; exact List.getElem?_set_ne (by omega))
    (fun _ => by rw [hbase]; exact List.getElem?_set_self hslot.1)
  have hkept : Kept true m (m.slots.set (m₁.frame.base + s.tables.inner.definitions) v) := by
    refine ⟨nofun, List.length_set, ?_⟩
    rw [hbase]
    exact List.take_set_of_le (Nat.le_add_right _ _)
  exact .done _ settles_bind
    { linked := hlinked
      le := hle
      world := ⟨_, rfl⟩
      runs := hruns
      slots := ⟨_, hkept, hstands⟩ }

/-- In the program itself. -/
theorem outcome_global (h : Stores final k s captures env name ip W m v w W₁ m₁)
    (henclosed : s.tables.inner.enclosed = false) (hindex : s.tables.inner.definitions ≤ 65535)
    (hfetch : m₁.frame.routine.code.fetch m₁.frame.ip =
      .instruction (.setGlobal s.tables.inner.definitions)) :
    Outcome k (fun _ => Eval.bind env name w) W₁ m₁ fun _ =>
      Binds final k s captures env name (ip + 3) m w W₁ := by
  have houter : s.tables.outer = [] := by
    by_contra houter
    rw [h.runs.sound.tables.enclosed_iff.2 houter] at henclosed
    cases henclosed
  obtain rfl := h.runs.level.1 houter
  have hindex : s.tables.inner.definitions < m₁.globals.size := by
    rw [h.linked.sound.values.globalsSize]
    exact Nat.lt_succ_of_le hindex
  have hname : final.tables.outermost.get? name =
      some ⟨name, .globalSlot, s.tables.inner.definitions⟩ := by
    refine h.names ?_
    unfold Nest.outermost
    rw [show (s.define name).tables.outer = [] from houter]
    refine (s.tables.inner.get?_define name name).trans ((if_pos rfl).trans ?_)
    simp [SymbolTable.nextSymbol, henclosed]
  have hheld := h.linked.holding h.stands.slots (.setGlobal s.tables.inner.definitions)
  refine .fetched hfetch (ensures_bind (hheld.pop fun m₂ h₂ hhost _ => ?_))
  refine ensures_bind (ensures_get ?_)
  rw [if_pos (by rw [h₂.globals]; exact hindex)]
  refine ensures_modify fun hnext => ?_
  have hstands : m₁.Stands (m₁.frame.ip + 3) m.slots
      { m₂ with globals := m₂.globals.setIfInBounds s.tables.inner.definitions v } :=
    ⟨h₂.slots, h₂.frame, h₂.callers⟩
  have hstands := h.stands.trans hstands
  rw [h.stands.ip_eq] at hstands
  have hle : W₁.Le 0 (W₁.bound 0 name w
      (m₂.globals.setIfInBounds s.tables.inner.definitions v)) := World.le_bound h.unbound nofun
  have hrelated := h.related hle.toExt h.get?_bound
  have hglobals : m₂.globals = m₁.globals := h₂.globals
  have hlinked := h.linked.bindGlobal hnext (by rw [hglobals]) h₂.made hname rfl hindex h.scope
    h.unbound hrelated
  have hruns := h.runs.define (h.le.toExt.trans hle.toExt) hstands h.sound h.names h.get?_bound
    hrelated (fun _ _ => rfl) (by rw [henclosed]; nofun)
  exact .done _ settles_bind
    { linked := hlinked
      le := hle
      world := ⟨_, rfl⟩
      runs := hruns
      slots := ⟨_, .refl true m, hstands⟩ }

/-- The store of a `let`. -/
theorem outcome (h : Stores final k s captures env name ip W m v w W₁ m₁)
    (hsymbol : symbol = s.tables.inner.nextSymbol name)
    (hlimit : symbol.index ≤ symbol.slots.limit)
    (hfetch : m₁.frame.routine.code.fetch m₁.frame.ip = .instruction symbol.store) :
    Outcome k (fun _ => Eval.bind env name w) W₁ m₁ fun _ =>
      Binds final k s captures env name (ip + symbol.store.size) m w W₁ := by
  subst hsymbol
  unfold SymbolTable.nextSymbol Symbol.store Symbol.slots at *
  cases henclosed : s.tables.inner.enclosed with
  | true =>
    simp only [henclosed, if_true] at hfetch ⊢
    exact h.outcome_local henclosed hfetch
  | false =>
    simp only [henclosed, Bool.false_eq_true, if_false] at hfetch hlimit ⊢
    exact h.outcome_global henclosed hlimit hfetch

end Stores

end Scriptlet
