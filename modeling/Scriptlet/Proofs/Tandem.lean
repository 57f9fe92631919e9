import Scriptlet.Proofs.Correspondence
import Scriptlet.Proofs.StackContents

/-!
# Both engines in tandem

`Outcome` compares the machine, which makes steps, with the evaluator, which is given a piece of a
tree.  The machine either comes to a state that a postcondition allows, and then the evaluation
settles, or it comes to an error, and then the evaluation never comes to a result unless the error
is that there is no more room.  `Outcome.bind` puts two comparisons one behind the other, and
`Outcome.fetched` leads through one instruction of the machine.

What has to hold where a comparison begins comes in three parts.

* `Linked`: the world describes the state of the machine and is good.
* `Runs`: the running call of the machine finds under a symbol what the evaluator finds under the
  name of that symbol.
* `Site`: the machine stands before the code of which the tree is known.
-/

namespace Scriptlet

open Code Machine Exec

/-- Whether an error says that there is no more room. -/
def Machine.Error.isOverflow : Error → Bool
  | .stackOverflow | .frameOverflow => true
  | _ => false

/-! ## Outcomes -/

section Outcome

variable {α β : Type} {k : Nat} {x : Nat → Eval α} {f : Nat → α → Eval β} {W W' : World}
  {m m' : Machine} {post : α → World → Machine → Prop} {post' : β → World → Machine → Prop}

/-- The machine comes to a state that the postcondition allows, and the evaluation settles; or the
machine comes to an error, and the evaluation has no result unless there was no more room. -/
def Outcome (k : Nat) (x : Nat → Eval α) (W : World) (m : Machine)
    (post : α → World → Machine → Prop) : Prop :=
  (∃ a W' m', Steps m m' ∧ Eval.Settles k x W.store a W'.store ∧ post a W' m') ∨
  ∃ m₁ e m₂, Steps m m₁ ∧ Exec.step m₁ = .error (.error e) m₂ ∧
    (e.isOverflow = true ∨ Eval.Never x W.store)

/-- How a step may fail where the evaluation `x` goes on. -/
def Fails (x : Nat → Eval α) (W : World) (halt : Halt) (_ : Machine) : Prop :=
  ∃ e, halt = .error e ∧ (e.isOverflow = true ∨ Eval.Never x W.store)

theorem fails_stackOverflow (m : Machine) : Fails x W (.error .stackOverflow) m :=
  ⟨_, rfl, .inl rfl⟩

theorem fails_frameOverflow (m : Machine) : Fails x W (.error .frameOverflow) m :=
  ⟨_, rfl, .inl rfl⟩

theorem fails_of_never {e : Error} (h : Eval.Never x W.store) (m : Machine) :
    Fails x W (.error e) m := ⟨e, rfl, .inr h⟩

namespace Outcome

theorem done {a : α} (W' : World) (h : Eval.Settles k x W.store a W'.store) (hpost : post a W' m) :
    Outcome k x W m post := .inl ⟨a, W', m, .refl, h, hpost⟩

theorem steps (hsteps : Steps m m') (h : Outcome k x W m' post) : Outcome k x W m post := by
  rcases h with ⟨a, W', m₁, hmore, hsettles, hpost⟩ | ⟨m₁, e, m₂, hmore, hfail⟩
  · exact .inl ⟨a, W', m₁, hsteps.trans hmore, hsettles, hpost⟩
  · exact .inr ⟨m₁, e, m₂, hsteps.trans hmore, hfail⟩

theorem mono {post' : α → World → Machine → Prop} (h : Outcome k x W m post)
    (hpost : ∀ a W' m', post a W' m' → post' a W' m') : Outcome k x W m post' := by
  rcases h with ⟨a, W', m₁, hsteps, hsettles, hp⟩ | hfail
  · exact .inl ⟨a, W', m₁, hsteps, hsettles, hpost _ _ _ hp⟩
  · exact .inr hfail

/-- Two comparisons, one behind the other. -/
theorem bind (h : Outcome k x W m post)
    (hf : ∀ a W' m', post a W' m' → Outcome k (fun d => f d a) W' m' post') :
    Outcome k (fun d => x d >>= f d) W m post' := by
  rcases h with ⟨a, W', m', hsteps, hsettles, hpost⟩ | ⟨m₁, e, m₂, hsteps, hfail, hwhy⟩
  · rcases hf a W' m' hpost with ⟨b, W'', m'', hsteps', hsettles', hpost'⟩ |
      ⟨m₁, e, m₂, hsteps', hfail, hwhy⟩
    · exact .inl ⟨b, W'', m'', hsteps.trans hsteps', hsettles.bind hsettles', hpost'⟩
    · refine .inr ⟨m₁, e, m₂, hsteps.trans hsteps', hfail, hwhy.imp id fun hnever => ?_⟩
      exact hsettles.bind_never hnever
  · exact .inr ⟨m₁, e, m₂, hsteps, hfail, hwhy.imp id fun hnever => hnever.bind⟩

/-- Another evaluation beside the same steps of the machine. -/
theorem instead {y : Nat → Eval β} (h : Outcome k x W m post)
    (hnever : Eval.Never x W.store → Eval.Never y W.store)
    (hy : ∀ a W' m', Eval.Settles k x W.store a W'.store → post a W' m' →
      Outcome k y W m' post') : Outcome k y W m post' := by
  rcases h with ⟨a, W', m', hsteps, hsettles, hpost⟩ | ⟨m₁, e, m₂, hsteps, hfail, hwhy⟩
  · exact (hy a W' m' hsettles hpost).steps hsteps
  · exact .inr ⟨m₁, e, m₂, hsteps, hfail, hwhy.imp id hnever⟩

/-- An instruction of the machine. -/
theorem fetched {i : Instruction} (hfetch : m.frame.routine.code.fetch m.frame.ip = .instruction i)
    (h : Ensures (execute i) (behind m i) (fun _ m' => Next m m' → Outcome k x W m' post)
      (Fails x W)) : Outcome k x W m post := by
  have hstep : Ensures Exec.step m
      (fun more m' => more = true ∧ (Next m m' → Outcome k x W m' post)) (Fails x W) :=
    ensures_fetched hfetch (h.mono (fun _ _ hm' => ⟨rfl, hm'⟩) fun _ _ hf => hf)
  cases hresult : Exec.step m with
  | ok more m' =>
    obtain ⟨rfl, hm'⟩ := hstep.of_ok hresult
    exact (hm' hresult).steps (.single hresult)
  | error halt m' =>
    obtain ⟨e, rfl, hwhy⟩ := hstep.of_error hresult
    exact .inr ⟨m, e, m', .refl, hresult, hwhy⟩

end Outcome

end Outcome

/-! ## Positions -/

/-- The machine is in the same call as before, at a position, with these values on the stack. -/
structure Machine.Stands (m : Machine) (ip : Nat) (xs : List Value) (m' : Machine) : Prop where
  slots : m'.slots = xs
  frame : m'.frame = { m.frame with ip := ip }
  callers : m'.callers = m.callers

namespace Machine

variable {m m₁ m₂ : Machine} {ip ip' : Nat} {xs ys : List Value} {i : Instruction}

theorem Stands.trans (h : m.Stands ip xs m₁) (h' : m₁.Stands ip' ys m₂) : m.Stands ip' ys m₂ :=
  ⟨h'.slots, by rw [h'.frame, h.frame], h'.callers.trans h.callers⟩

theorem Stands.ip_eq (h : m.Stands ip xs m₁) : m₁.frame.ip = ip := by rw [h.frame]

theorem Stands.routine_eq (h : m.Stands ip xs m₁) : m₁.frame.routine = m.frame.routine := by
  rw [h.frame]

theorem Stands.depth_eq (h : m.Stands ip xs m₁) : m₁.depth = m.depth := by
  unfold depth
  rw [h.callers]

/-- The position after an instruction that stays in the frame. -/
theorem Holding.stands (h : Holding (behind m i) xs m₁) :
    m.Stands (m.frame.ip + i.size) xs m₁ := ⟨h.slots, h.frame, h.callers⟩

end Machine

/-- The world describes the state of a machine that runs a compiled program. -/
structure Linked (final : Stage) (W : World) (m : Machine) : Prop where
  good : W.Good
  made : W.made ≤ m.host.made
  root : 0 < W.store.next
  slots : m.globals = W.globals
  globals : ∀ {name symbol w}, final.tables.outermost.get? name = some symbol →
    symbol.place = .globalSlot → W.store.get? 0 name = some w →
    ∃ v, m.globals[symbol.index]? = some v ∧ v.Related final W w
  constants : m.constants = final.constants
  table : final.tables.outermost.Proper
  sound : m.Sound final.globals

namespace Linked

variable {final : Stage} {W W' : World} {m m' : Machine} {xs : List Value} {i : Instruction}
  {n : Nat}

theorem holding (h : Linked final W m) (hslots : m.slots = xs) (i : Instruction) :
    Holding (behind m i) xs (behind m i) where
  size := h.sound.values.stackSize
  sp := h.sound.values.sp
  slots := hslots
  frame := rfl
  callers := rfl
  globals := rfl
  made := Nat.le_refl _

/-- A step of the machine that leaves the globals alone. -/
theorem next (h : Linked final W m) (hnext : Next m m') (hglobals : m'.globals = m.globals)
    (hmade : m.host.made ≤ m'.host.made) : Linked final W m' := by
  obtain ⟨hsound, hconstants⟩ := h.sound.steps (.single hnext)
  refine { h with
    made := Nat.le_trans h.made hmade
    slots := hglobals.trans h.slots
    globals := fun hget hplace hw => ?_
    constants := hconstants.trans h.constants
    sound := hsound }
  rw [hglobals]
  exact h.globals hget hplace hw

theorem stays (h : Linked final W m) (hnext : Next m m') (hheld : Holding (behind m i) xs m') :
    Linked final W m' := h.next hnext hheld.globals hheld.made

/-- The world changes beside the machine, and the names of the program stand for what they did. -/
theorem of_ext (h : Linked final W m) (hext : W.Ext W')
    (hsame : ∀ x, W'.store.get? 0 x = W.store.get? 0 x) (hglobals : W'.globals = W.globals)
    (hgood : W'.Good) (hmade : W'.made ≤ m.host.made) : Linked final W' m := by
  refine { h with
    good := hgood
    made := hmade
    root := Nat.lt_of_lt_of_le h.root hext.next
    slots := h.slots.trans hglobals.symm
    globals := fun hget hplace hw => ?_ }
  rw [hsame] at hw
  obtain ⟨v, hv, hrelated⟩ := h.globals hget hplace hw
  exact ⟨v, hv, hrelated.mono hext⟩

/-- The world grows beside the machine. -/
theorem grow (h : Linked final W m) (hle : W.Le n W') (hn : 0 < n) (hgood : W'.Good)
    (hmade : W'.made ≤ m.host.made) : Linked final W' m :=
  h.of_ext hle.toExt (fun x => hle.same x hn) (hle.globals hn) hgood hmade

end Linked

/-! ## Names in a running call -/

/-- Compilation has not gone further than a stage: its constants are in the pool, and its captures
are among those of the running function. -/
structure Stage.Below (s final : Stage) (captures : List Symbol) : Prop where
  constants : s.constants.toList <+: final.constants.toList
  captures : s.captures <+: captures

theorem Stage.Below.of_grows {s s' final : Stage} {captures : List Symbol}
    (h : s'.Below final captures) (hgrows : s.Grows s') : s.Below final captures :=
  ⟨hgrows.constants.trans h.constants, hgrows.tables.innermost.captures.trans h.captures⟩

/-- The running call finds under a symbol of the innermost table what the evaluator finds under its
name in the environment.  At most `k` more calls can be nested in it. -/
structure Runs (final : Stage) (k : Nat) (W : World) (s : Stage) (captures : List Symbol)
    (env : Nat) (m : Machine) : Prop where
  sound : s.Sound
  level : s.tables.outer = [] ↔ env = 0
  inside : env < W.store.next
  unhidden : ∀ x, W.scope env x → Builtin.ofName? x = none
  room : maxFrames ≤ m.depth + k
  names : ∀ {name symbol}, s.tables.outermost.get? name = some symbol →
    final.tables.outermost.get? name = some symbol
  locals : ∀ {name symbol}, s.tables.inner.get? name = some symbol → symbol.place = .localSlot →
    ∃ v w, m.slots[m.frame.base + symbol.index]? = some v ∧ W.store.get? env name = some w ∧
      v.Related final W w
  itself : ∀ {name symbol}, s.tables.inner.get? name = some symbol → symbol.place = .itself →
    ∃ w, W.store.get? env name = some w ∧
      (Value.closure m.frame.stamp m.frame.routine m.frame.free).Related final W w
  captured : ∀ {i : Nat} {c}, captures[i]? = some c →
    ∃ v w, m.frame.free[i]? = some v ∧ W.store.get? env c.name = some w ∧ v.Related final W w
  globals : ∀ {name symbol}, s.tables.outermost.get? name = some symbol →
    symbol.place = .globalSlot → ∃ w, W.store.get? env name = some w ∧ W.store.get? 0 name = some w

namespace Runs

variable {final s s' : Stage} {k env ip : Nat} {W W' : World} {captures : List Symbol}
  {m m' : Machine} {ys : List Value}

/-- Later in the same call, with more on the stack. -/
theorem mono (h : Runs final k W s captures env m) (hext : W.Ext W')
    (hstands : m.Stands ip (m.slots ++ ys) m') : Runs final k W' s captures env m' where
  sound := h.sound
  level := h.level
  inside := Nat.lt_of_lt_of_le h.inside hext.next
  unhidden x hx := h.unhidden x ((hext.scope h.inside).1 hx)
  room := hstands.depth_eq ▸ h.room
  names := h.names
  locals hget hplace := by
    obtain ⟨v, w, hv, hw, hrelated⟩ := h.locals hget hplace
    refine ⟨v, w, ?_, hext.get? hw, hrelated.mono hext⟩
    rw [hstands.slots, hstands.frame, List.getElem?_append_left (List.getElem?_eq_some_iff.1 hv).1]
    exact hv
  itself hget hplace := by
    obtain ⟨w, hw, hrelated⟩ := h.itself hget hplace
    rw [hstands.frame]
    exact ⟨w, hext.get? hw, hrelated.mono hext⟩
  captured hc := by
    obtain ⟨v, w, hv, hw, hrelated⟩ := h.captured hc
    rw [hstands.frame]
    exact ⟨v, w, hv, hext.get? hw, hrelated.mono hext⟩
  globals hget hplace := by
    obtain ⟨w, hw, hw₀⟩ := h.globals hget hplace
    exact ⟨w, hext.get? hw, hext.get? hw₀⟩

/-- At a later stage of compilation, as long as no name has been bound. -/
theorem widen (h : Runs final k W s captures env m) (hwidens : s.tables.Widens false s'.tables)
    (hsound : s'.Sound) : Runs final k W s' captures env m := by
  have hinner : ∀ {name symbol}, s'.tables.inner.get? name = some symbol →
      symbol.place ≠ .captured → s.tables.inner.get? name = some symbol := fun hget hplace =>
    (hwidens.inner rfl _ _ hget).resolve_right hplace
  have houtermost := hwidens.outermost (.inl rfl)
  have hlevel : s'.tables.outer = [] ↔ s.tables.outer = [] := by
    rw [← List.length_eq_zero_iff, ← List.length_eq_zero_iff, hwidens.outer.length_eq]
  exact { h with
    sound := hsound
    level := hlevel.trans h.level
    names := fun hget => h.names (houtermost ▸ hget)
    locals := fun hget hplace => h.locals (hinner hget (by rw [hplace]; nofun)) hplace
    itself := fun hget hplace => h.itself (hinner hget (by rw [hplace]; nofun)) hplace
    globals := fun hget hplace => h.globals (houtermost ▸ hget) hplace }

/-- A symbol of the innermost table that closures have to capture: loading it pushes what its name
stands for in the environment. -/
theorem load_unshared (h : Runs final k W s captures env m) (hlinked : Linked final W m)
    (hbelow : s.captures <+: captures) {name : String} {symbol : Symbol}
    (hget : s.tables.inner.get? name = some symbol) (hshared : symbol.isShared = false) :
    ∃ v w, (∀ i, execute symbol.load (behind m i) = Exec.push v (behind m i)) ∧
      W.store.get? env name = some w ∧ v.Related final W w := by
  unfold Symbol.isShared at hshared
  unfold Symbol.load
  cases hplace : symbol.place with
  | localSlot =>
    obtain ⟨v, w, hv, hw, hrelated⟩ := h.locals hget hplace
    refine ⟨v, w, fun i => ?_, hw, hrelated⟩
    have hstack := getElem?_stack_of_slots hv
    have hlt : m.frame.base + symbol.index < stackSize := by
      rw [← hlinked.sound.values.stackSize]
      exact (Array.getElem?_eq_some_iff.1 hstack).1
    have hslot : localSlot .getLocal symbol.index (behind m i) =
        .ok (m.frame.base + symbol.index) (behind m i) := by
      refine (bind_of_ok (get_apply _)).trans ?_
      exact congrFun (if_pos hlt) _
    refine (bind_of_ok hslot).trans ((bind_of_ok (get_apply _)).trans ?_)
    have hbounds : inBounds (behind m i).stack[m.frame.base + symbol.index]? (behind m i) =
        .ok v (behind m i) := by
      rw [show (behind m i).stack[m.frame.base + symbol.index]? = some v from hstack]
      rfl
    exact bind_of_ok hbounds
  | captured =>
    have hholds := h.sound.tables.sound.holds hget
    unfold SymbolTable.Holds at hholds
    rw [hplace] at hholds
    obtain ⟨-, c, hc, hname⟩ := hholds
    have hc' : captures[symbol.index]? = some c := by
      obtain ⟨more, rfl⟩ := hbelow
      have hlt := (List.getElem?_eq_some_iff.1 hc).1
      exact (List.getElem?_append_left hlt).trans hc
    obtain ⟨v, w, hv, hw, hrelated⟩ := h.captured hc'
    rw [hname, h.sound.tables.sound.name hget] at hw
    refine ⟨v, w, fun i => ?_, hw, hrelated⟩
    refine (bind_of_ok (get_apply _)).trans ?_
    rw [show (behind m i).frame.free[symbol.index]? = some v from hv]
  | itself =>
    obtain ⟨w, hw, hrelated⟩ := h.itself hget hplace
    exact ⟨_, w, fun i => rfl, hw, hrelated⟩
  | _ => simp [hplace] at hshared

/-- Loading a symbol that was found pushes what the evaluator finds under its name. -/
theorem load (h : Runs final k W s captures env m) (hlinked : Linked final W m)
    (hbelow : s.captures <+: captures) {name : String} {symbol : Symbol}
    (hget : s.tables.inner.get? name = some symbol ∨
      symbol.isShared = true ∧ s.tables.outermost.get? name = some symbol) :
    ∃ v w, (∀ i, execute symbol.load (behind m i) = Exec.push v (behind m i)) ∧
      Eval.lookup env name W.store = .ok w W.store ∧ v.Related final W w := by
  have hbound : ∀ w, W.store.get? env name = some w →
      Eval.lookup env name W.store = .ok w W.store := by
    intro w hw
    unfold Eval.lookup
    rw [hw]
  cases hshared : symbol.isShared with
  | false =>
    have hinner := hget.resolve_right fun hr => by rw [hshared] at hr; exact nomatch hr.1
    obtain ⟨v, w, hexecute, hw, hrelated⟩ := h.load_unshared hlinked hbelow hinner hshared
    exact ⟨v, w, hexecute, hbound w hw, hrelated⟩
  | true =>
    have houtermost : s.tables.outermost.get? name = some symbol := by
      rcases hget with hget | ⟨-, hget⟩
      · exact h.sound.tables.outermost_of_isShared hget hshared
      · exact hget
    unfold Symbol.isShared at hshared
    unfold Symbol.load
    cases hplace : symbol.place with
    | globalSlot =>
      obtain ⟨w, hw, hw₀⟩ := h.globals houtermost hplace
      obtain ⟨v, hv, hrelated⟩ := hlinked.globals (h.names houtermost) hplace hw₀
      refine ⟨v, w, fun i => ?_, hbound w hw, hrelated⟩
      refine (bind_of_ok (get_apply _)).trans ?_
      have hbounds : inBounds (behind m i).globals[symbol.index]? (behind m i) =
          .ok v (behind m i) := by
        rw [show (behind m i).globals[symbol.index]? = some v from hv]
        rfl
      exact bind_of_ok hbounds
    | builtin =>
      obtain ⟨b, hb, hname⟩ := hlinked.table.builtins (h.names houtermost) hplace
      refine ⟨.builtin b, .builtin b, fun i => ?_, ?_, .builtin b⟩
      · show execute (.getBuiltin symbol.index) (behind m i) = _
        simp only [execute, hb]
      · unfold Eval.lookup
        cases hw : W.store.get? env name with
        | some w =>
          -- a bound name is in scope, and no name of a builtin function is
          rw [h.unhidden name (hlinked.good.names.of_get? hw)] at hname
          cases hname
        | none => rw [hname]
    | _ => simp [hplace] at hshared

end Runs

/-! ## Code that is about to run -/

/-- The machine stands at `p` before the code `is`, which was compiled from the stage `s` to the
stage `s'`. -/
structure Site (final : Stage) (k : Nat) (W : World) (s s' : Stage) (captures : List Symbol)
    (env : Nat) (m : Machine) (p : Nat) (is : List Instruction) : Prop where
  runs : Runs final k W s captures env m
  linked : Linked final W m
  code : m.frame.routine.code.Shows p is
  ip : m.frame.ip = p
  below : s'.Below final captures

namespace Site

variable {final s s₁ s' : Stage} {k env p : Nat} {W W' : World} {captures : List Symbol}
  {m m' : Machine} {is js : List Instruction} {ys : List Value}

/-- The first of two pieces of code. -/
theorem first (h : Site final k W s s' captures env m p (is ++ js)) (hgrows : s₁.Grows s') :
    Site final k W s s₁ captures env m p is :=
  { h with code := (shows_append.1 h.code).1, below := h.below.of_grows hgrows }

/-- The second of two pieces of code, once the first has run and has left values on the stack. -/
theorem rest (h : Site final k W s s' captures env m p (is ++ js)) (hlinked : Linked final W' m')
    (hext : W.Ext W') (hstands : m.Stands (p + extent is) (m.slots ++ ys) m')
    (hwidens : s.tables.Widens false s₁.tables) (hsound : s₁.Sound) :
    Site final k W' s₁ s' captures env m' (p + extent is) js := by
  have hruns : Runs final k W' s₁ captures env m' := (h.runs.mono hext hstands).widen hwidens hsound
  have hcode : m'.frame.routine.code.Shows (p + extent is) js := by
    rw [hstands.routine_eq]
    exact (shows_append.1 h.code).2
  exact { h with runs := hruns, linked := hlinked, code := hcode, ip := hstands.ip_eq }

/-- The instruction behind code that has run. -/
theorem fetch {i : Instruction} (h : Site final k W s s' captures env m p (is ++ i :: js))
    (hstands : m.Stands (p + extent is) ys m') :
    m'.frame.routine.code.fetch m'.frame.ip = .instruction i := by
  rw [hstands.routine_eq, hstands.ip_eq]
  exact (shows_append.1 h.code).2.1

end Site

end Scriptlet
