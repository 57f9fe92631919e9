import Scriptlet.Proofs.Invocation

/-!
# Both engines agree

A program is compiled and run by the machine, or it is evaluated from its tree.  Both start with
nothing: the machine with empty global slots, the evaluator with one empty environment.  On regular
programs the two agree (`Program.Regular.engines_agree`).

* If the machine comes to the end of a program, then evaluation comes to a value that is related to
  the result of the machine, provided that as many calls may be nested as the machine has frames.
* If the machine comes to an error, and not for lack of room, then evaluation comes to no value.

The comparison of code and tree starts at the first instruction (`World.start`, `Site.start`) and
ends with the program (`Ends.finish`).  What then happens in a run is determined, since the machine
has only one way to go (`Outcome.of_runFor_ok`, `Outcome.of_runFor_error`).
-/

namespace Scriptlet

open Code Machine Exec Value

variable {final s s' : Stage} {k n p : Nat} {W W' : World} {m m₁ m₂ m' : Machine} {v w : Value}
  {is : List Instruction} {program body : Program} {c : Compiler}

/-! ## The first names -/

namespace SymbolTable

variable {name : String} {symbol : Symbol} {table : SymbolTable}

theorem get?_foldl_defineBuiltin {builtins : List (Builtin × Nat)}
    (h : (builtins.foldl (fun table b => table.defineBuiltin b.2 b.1.name) table).get? name =
      some symbol) :
    table.get? name = some symbol ∨
      ∃ b ∈ builtins, b.1.name = name ∧ symbol = ⟨name, .builtin, b.2⟩ := by
  induction builtins generalizing table with
  | nil => exact .inl h
  | cons b rest ih =>
    rcases ih h with hget | ⟨b', hb', hsymbol⟩
    · have hinsert := get?_insert table ⟨b.1.name, .builtin, b.2⟩ name
      rw [show (table.insert ⟨b.1.name, .builtin, b.2⟩).get? name = _ from hget] at hinsert
      split at hinsert
      · next heq =>
        obtain rfl := Option.some.inj hinsert
        have heq : b.1.name = name := heq
        exact .inr ⟨b, List.mem_cons_self .., heq, by rw [heq]⟩
      · exact .inl hinsert.symm
    · exact .inr ⟨b', List.mem_cons_of_mem b hb', hsymbol⟩

/-- Before a program, only the builtin functions have names. -/
theorem get?_withBuiltins (h : withBuiltins.get? name = some symbol) :
    ∃ b, Builtin.all[symbol.index]? = some b ∧ b.name = name ∧ symbol.place = .builtin := by
  rcases get?_foldl_defineBuiltin h with hget | ⟨b, hb, hname, rfl⟩
  · simp [get?] at hget
  · exact ⟨b.1, List.mem_zipIdx_iff_getElem?.1 hb, hname, rfl⟩

theorem proper_withBuiltins : withBuiltins.Proper := by
  refine ⟨fun hget _ => ?_, fun hget _ hplace => ?_⟩
  · obtain ⟨b, hb, rfl, -⟩ := get?_withBuiltins hget
    exact ⟨b, hb, by cases b <;> rfl⟩
  · obtain ⟨-, -, -, hbuiltin⟩ := get?_withBuiltins hget
    rw [hplace] at hbuiltin
    cases hbuiltin

end SymbolTable

/-! ## Before the first instruction -/

/-- A world in which nothing has been bound or made.  The names are those that the program is going
to bind. -/
def World.start (names : List String) (globals : Array Value) : World where
  store := .start
  made := 1
  pairs := fun _ _ => False
  scope := fun _ x => x ∈ names
  globals := globals

namespace World

variable {names : List String} {globals : Array Value}

theorem get?_start (env : Nat) (x : String) : Store.start.get? env x = none := by
  cases hget : Store.start.get? env x with
  | none => rfl
  | some v =>
    have hscoped : Store.start.Scoped fun _ _ => False := by
      refine ⟨fun {env e x v} he hb => ?_, fun _ _ _ x hx => hx⟩
      obtain ⟨hlt, rfl⟩ := Array.getElem?_eq_some_iff.1 he
      obtain rfl : env = 0 := Nat.lt_one_iff.1 hlt
      simp [Store.start, Store.extend] at hb
    exact (hscoped.of_get? hget).elim

theorem good_start : (World.start names globals).Good := by
  refine ⟨nofun, nofun, nofun, fun {env e x v} he hb => ?_, fun _ _ _ x hx => hx⟩
  have hget : Store.start.get? env x = some v := by
    unfold Store.get?
    rw [show Store.start.environments[env]? = some e from he]
    dsimp only
    rw [hb]
  rw [get?_start] at hget
  cases hget

end World

/-- Outside of functions, the innermost table is that of the program. -/
theorem Stage.Sound.soundProgram (h : s.Sound) (houter : s.tables.outer = []) :
    s.tables.inner.SoundProgram := by
  have hprogram := Chain.SoundFrom.outermost h.tables
  rw [houter] at hprogram
  exact hprogram

/-- A program has been compiled by itself: its code is that of its tree, and a sound machine starts
with it. -/
structure Program.CompilesTo (program : Program) (is : List Instruction) (c : Compiler) : Prop where
  code : StmtsCode Session.start.stage 0 program is c.stage
  outer : c.stage.tables.outer = []
  bytes : c.bytecode.code = assemble is
  shows : c.bytecode.code.Shows 0 is
  sound : (Machine.start c.bytecode).Sound c.stage.globals

namespace Program.CompilesTo

theorem reaches (h : program.CompilesTo is c) : Session.start.stage.Reaches is c.stage :=
  h.code.reaches Session.sound_start

theorem soundProgram (h : program.CompilesTo is c) : c.stage.tables.inner.SoundProgram :=
  h.reaches.sound.soundProgram h.outer

end Program.CompilesTo

theorem Compiler.compilesTo (h : Compiler.start.compile program = (.ok (), c)) :
    ∃ is, program.CompilesTo is c := by
  have hempty : Compiler.start.buffers.inner.Records [] := Buffer.records_empty
  obtain ⟨is, hcode, hrecords, -⟩ := Compiler.compile_code h hempty
  have houter := hcode.outer_nil Session.sound_start rfl
  have hsession : Session.start.compile program = _ := Session.compile_eq h
  obtain ⟨-, hsound, -⟩ := Session.Reachable.start.soundSession.load hsession
  have hreaches := hcode.reaches Session.sound_start
  have hprogram := hreaches.sound.soundProgram houter
  have hsmall : c.stage.bounds.Small := by
    refine ⟨hreaches.sound.pool, hreaches.sound.slots, ?_, ?_⟩
    · simp [Stage.bounds, hprogram.enclosed]
    · simp [Stage.bounds, hprogram.captures]
  have hbytes : c.bytecode.code = assemble is := hrecords.code
  have hshows : c.bytecode.code.Shows 0 is := by
    rw [hbytes]
    exact (decodesTo_assemble fun i hi => (hreaches.valid i hi).fits hsmall).shows
  exact ⟨is, { code := hcode, outer := houter, bytes := hbytes, shows := hshows, sound := hsound }⟩

/-- The machine that starts with a compiled program is described by the world that starts with its
names. -/
theorem Linked.start (h : program.CompilesTo is c) (hregular : program.Regular) :
    Linked c.stage (.start (Program.lets program) (Machine.start c.bytecode).globals)
      (Machine.start c.bytecode) where
  good := World.good_start
  made := Nat.le_refl _
  root := Nat.zero_lt_one
  slots := rfl
  globals _ _ hw := by cases (World.get?_start 0 _).symm.trans hw
  constants := rfl
  table := by
    have hproper := h.code.proper hregular.shape Session.sound_start rfl
      SymbolTable.proper_withBuiltins
    unfold Nest.outermost
    rw [h.outer]
    exact hproper
  sound := h.sound

/-- The names that a regular program binds are new when it starts. -/
theorem Fresh.start {globals : Array Value} (h : program.Regular) :
    Fresh (.start (Program.lets program) globals) Session.start.stage 0 program := by
  have hperm := Program.binders_perm program
  have hdistinct := List.nodup_append.1 (hperm.nodup_iff.1 h.distinct)
  have hunhidden : ∀ x, x ∈ Program.lets program ++ Program.nested program →
      Builtin.ofName? x = none := fun x hx => h.unhidden x (hperm.mem_iff.2 hx)
  refine ⟨fun x hx => ⟨hx, World.get?_start 0 x⟩, hdistinct.1, ⟨hdistinct.2.1, fun x hx hlet => ?_,
    fun x hx => hunhidden x (List.mem_append_right _ hx)⟩, fun _ => ⟨rfl, hdistinct.1, ?_⟩⟩
  · exact hdistinct.2.2 x hlet x hx rfl
  · intro x hx
    cases hget : SymbolTable.withBuiltins.get? x with
    | none => exact hget
    | some symbol =>
      -- a name that the table knows is that of a builtin function
      obtain ⟨b, -, rfl, -⟩ := SymbolTable.get?_withBuiltins hget
      have hname := hunhidden b.name (List.mem_append_left _ hx)
      cases b <;> cases hname

/-- The site at which a program starts. -/
theorem Site.start (h : program.CompilesTo is c) (hregular : program.Regular) :
    Site c.stage (maxFrames - 1)
      (.start (Program.lets program) (Machine.start c.bytecode).globals)
      Session.start.stage c.stage c.stage.captures 0 (Machine.start c.bytecode) 0
      (valueCode is) := by
  have hplace : ∀ {name symbol}, Session.start.stage.tables.inner.get? name = some symbol →
      symbol.place = .builtin := fun hget => by
    obtain ⟨-, -, -, hplace⟩ := SymbolTable.get?_withBuiltins hget
    exact hplace
  have hfresh : Fresh (.start (Program.lets program) #[]) Session.start.stage 0 program :=
    .start hregular
  have hruns : Runs c.stage (maxFrames - 1)
      (.start (Program.lets program) (Machine.start c.bytecode).globals) Session.start.stage
      c.stage.captures 0 (Machine.start c.bytecode) :=
    { sound := Session.sound_start
      level := ⟨fun _ => rfl, fun _ => rfl⟩
      inside := Nat.zero_lt_one
      unhidden := fun x hx => hregular.unhidden x
        ((Program.binders_perm program).mem_iff.2 (List.mem_append_left _ hx))
      room := (by decide : maxFrames ≤ 1 + (maxFrames - 1))
      names := h.code.keeps_outermost hregular.shape hfresh.unbound
      locals := fun hget hlocal => by cases (hplace hget).symm.trans hlocal
      itself := fun hget hitself => by cases (hplace hget).symm.trans hitself
      captured := fun hc => by
        unfold Stage.captures at hc
        rw [h.soundProgram.captures] at hc
        cases hc
      globals := fun hget hglobal => by cases (hplace hget).symm.trans hglobal }
  exact
    { runs := hruns
      linked := .start h hregular
      code := h.shows.valueCode
      ip := rfl
      below := ⟨List.prefix_refl _, List.prefix_refl _⟩ }

/-! ## Behind the last instruction -/

/-- The program has ended, and its result is related to the value that evaluation has come to. -/
structure Finished (final : Stage) (w : Value) (W : World) (m : Machine) : Prop where
  ended : Exec.step m = .ok false m
  good : W.Good
  related : m.lastPopped.Related final W w

/-- The code of a program ends with the `pop` of an expression or with a return. -/
theorem StmtsCode.getLast?_of_endsInValue {s s' : Stage} {p : Nat} {body : Program}
    {is : List Instruction} : StmtsCode s p body is s' → Program.endsInValue body = true →
    is.getLast? = some .pop ∨ is.getLast? = some .returnValue
  | .nil, h => by cases h
  | @StmtsCode.cons _ _ _ _ first rest is js hfirst hrest, h => by
    cases rest with
    | nil =>
      cases hrest
      rw [List.append_nil]
      cases hfirst with
      | bind => cases h
      | ret => exact .inr List.getLast?_concat
      | eval => exact .inl List.getLast?_concat
    | cons second rest =>
      rw [List.getLast?_append_of_ne_nil is hrest.ne_nil]
      refine hrest.getLast?_of_endsInValue ?_
      unfold Program.endsInValue at h ⊢
      rw [List.getLast?_cons_cons] at h
      exact h

/-- The end of a program that is not in a call. -/
theorem Ends.finish (h : Ends final n true true W m (0 + extent (valueCode is)) is.getLast? w W' m')
    (hlast : is.getLast? = some .pop ∨ is.getLast? = some .returnValue)
    (hcode : m.frame.routine.code = assemble is) (hshows : m.frame.routine.code.Shows 0 is)
    (hcallers : m.callers = #[]) :
    Outcome k (fun _ => pure (Eval.unmark w)) W' m' (Finished final) := by
  cases h with
  | @value v w xs W' m' hpop hlinked hle hrelated hkept hstands =>
    rw [hrelated.unmark]
    obtain ⟨js, rfl⟩ := List.getLast?_eq_some_iff.1 hpop
    rw [valueCode_concat_pop] at hstands
    have hfetch : m'.frame.routine.code.fetch m'.frame.ip = .instruction .pop := by
      rw [hstands.routine_eq, hstands.ip_eq]
      exact (shows_append.1 hshows).2.1
    refine .fetched hfetch (ensures_bind ((hlinked.holding hstands.slots .pop).pop ?_))
    intro m₁ hm₁ _ htop
    have hcode₁ : m₁.frame.routine.code = assemble (js ++ [.pop]) := by
      rw [hm₁.frame]
      show m'.frame.routine.code = _
      rw [hstands.routine_eq, hcode]
    have hip₁ : m₁.frame.ip = extent (js ++ [.pop]) := by
      rw [hm₁.frame]
      show m'.frame.ip + 1 = _
      rw [hstands.ip_eq, extent_append, Nat.zero_add]
      rfl
    refine ensures_pure fun _ => .done W' (Eval.settles_of_eq fun _ => rfl)
      ⟨step_end hcode₁ hip₁, hlinked.good, ?_⟩
    unfold lastPopped
    rw [htop]
    exact hrelated
  | nothing hpop hreturn => exact (hlast.elim hpop hreturn).elim
  | returns hmay h =>
    obtain ⟨v, w', xs, p, rfl, hrelated, hkept, hstands, hfetch⟩ := h.value
    rw [← hstands.routine_eq, ← hstands.ip_eq] at hfetch
    refine .fetched hfetch (ensures_bind ((h.linked.holding hstands.slots .returnValue).pop ?_))
    intro m₁ hm₁ _ _
    have hcallers₁ : m₁.callers.back? = none := by
      rw [hm₁.callers]
      show m'.callers.back? = none
      rw [hstands.callers, hcallers]
      rfl
    have hcode₁ : m₁.frame.routine.code = assemble is := by
      rw [hm₁.frame]
      show m'.frame.routine.code = _
      rw [hstands.routine_eq, hcode]
    refine hm₁.returnProgram hcallers₁ fails_stackOverflow fun m₂ hframe htop _ => ?_
    have hcode₂ : m₂.frame.routine.code = assemble is := by
      rw [hframe]
      exact hcode₁
    have hip₂ : m₂.frame.ip = extent is := by
      rw [hframe]
      show m₁.frame.routine.code.size = _
      rw [hcode₁, size_assemble]
    exact .done W' (Eval.settles_of_eq fun _ => rfl)
      ⟨step_end hcode₂ hip₂, h.linked.good, htop ▸ hrelated⟩

/-- A regular program that starts in both engines. -/
theorem Program.Regular.outcome (h : program.Regular)
    (hcompile : Compiler.start.compile program = (.ok (), c)) :
    Outcome (maxFrames - 1) (fun d => Eval.program d 0 program)
      (.start (Program.lets program) (Machine.start c.bytecode).globals)
      (Machine.start c.bytecode) (Finished c.stage) := by
  obtain ⟨is, hcompiles⟩ := Compiler.compilesTo hcompile
  have hcode := hcompiles.code
  refine Outcome.bind (f := fun _ result => pure (Eval.unmark result))
    (hcode.outcome (callsAgree c.stage _) h.shape (.start hcompiles h) (.start h) (Nat.zero_le _)
      (fun _ => Nat.le_refl 0) id) fun w W' m' hends => ?_
  exact hends.finish (hcode.getLast?_of_endsInValue h.last) hcompiles.bytes hcompiles.shows rfl

/-! ## Runs -/

/-- The machine has only one way to go. -/
theorem Machine.steps_end (h₁ : Steps m m₁) (h₂ : Steps m m₂) (hend₁ : ∀ m', ¬ Next m₁ m')
    (hend₂ : ∀ m', ¬ Next m₂ m') : m₁ = m₂ := by
  rcases steps_total h₁ h₂ with hsteps | hsteps
  · rcases Relation.ReflTransGen.cases_head hsteps with heq | ⟨m', hnext, -⟩
    · exact heq
    · exact absurd hnext (hend₁ m')
  · rcases Relation.ReflTransGen.cases_head hsteps with heq | ⟨m', hnext, -⟩
    · exact heq.symm
    · exact absurd hnext (hend₂ m')

section Run

variable {x : Nat → Eval Value} {fuel : Nat} {e : Error}

theorem not_next_of_end (h : Exec.step m = .ok false m₁) (m' : Machine) : ¬ Next m m' :=
  fun hnext => nomatch h.symm.trans hnext

theorem not_next_of_error {halt : Halt} (h : Exec.step m = .error halt m₁) (m' : Machine) :
    ¬ Next m m' := fun hnext => nomatch h.symm.trans hnext

/-- A run that comes to an end. -/
theorem Outcome.of_runFor_ok (h : Outcome k x W m (Finished final))
    (hrun : m.runFor fuel = (.ok (), m')) :
    ∃ w W', Eval.Settles k x W.store w W'.store ∧ Finished final w W' m' := by
  obtain ⟨m₁, hsteps₁, hend₁⟩ := runFor_ok hrun
  rcases h with ⟨w, W', m₂, hsteps₂, hsettles, hfinished⟩ | ⟨m₂, e, m₃, hsteps₂, hfail, -⟩
  · have hsame := steps_end hsteps₁ hsteps₂ (not_next_of_end hend₁)
      (not_next_of_end hfinished.ended)
    subst hsame
    cases hend₁.symm.trans hfinished.ended
    exact ⟨w, W', hsettles, hfinished⟩
  · have hsame := steps_end hsteps₁ hsteps₂ (not_next_of_end hend₁) (not_next_of_error hfail)
    subst hsame
    cases hend₁.symm.trans hfail

/-- A run that fails. -/
theorem Outcome.of_runFor_error (h : Outcome k x W m (Finished final))
    (hrun : m.runFor fuel = (.error (.error e), m')) (hroom : e.isOverflow = false) :
    Eval.Never x W.store := by
  obtain ⟨m₁, hsteps₁, ⟨hfuel, -⟩ | hfail₁⟩ := runFor_error hrun
  · cases hfuel
  · rcases h with ⟨w, W', m₂, hsteps₂, -, hfinished⟩ | ⟨m₂, e', m₃, hsteps₂, hfail, hwhy⟩
    · have hsame := steps_end hsteps₁ hsteps₂ (not_next_of_error hfail₁)
        (not_next_of_end hfinished.ended)
      subst hsame
      cases hfail₁.symm.trans hfinished.ended
    · have hsame := steps_end hsteps₁ hsteps₂ (not_next_of_error hfail₁) (not_next_of_error hfail)
      subst hsame
      cases hfail₁.symm.trans hfail
      exact hwhy.resolve_left (by rw [hroom]; exact Bool.false_ne_true)

end Run

/-- The machine and the evaluator agree on every regular program that can be compiled.  If the
machine comes to the end of the program, then evaluating it comes to a value that is related to the
result of the machine, under every bound on nested calls that is no less than the number of frames.
If the machine comes to an error other than that there is no more room, then evaluating the program
comes to an error too, or does not come to an end within the bound. -/
theorem Program.Regular.engines_agree (h : program.Regular)
    (hcompile : Compiler.start.compile program = (.ok (), c)) (fuel : Nat) :
    (∀ m, (Machine.start c.bytecode).runFor fuel = (.ok (), m) →
      ∃ w W, World.Good W ∧ m.lastPopped.Related c.stage W w ∧
        ∀ depth, maxFrames ≤ depth →
          Store.start.perform (Eval.program depth 0 program) = (.ok w, W.store)) ∧
    ∀ e m, (Machine.start c.bytecode).runFor fuel = (.error (.error e), m) →
      e.isOverflow = false → ∀ depth result after,
        Store.start.perform (Eval.program depth 0 program) = (result, after) →
        result ≠ .error .tooDeep → ∃ e', result = .error (.error e') := by
  have houtcome := h.outcome hcompile
  refine ⟨fun m hrun => ?_, fun e m hrun hroom depth result after hperform hdeep => ?_⟩
  · obtain ⟨w, W, hsettles, hfinished⟩ := houtcome.of_runFor_ok hrun
    refine ⟨w, W, hfinished.good, hfinished.related, fun depth hdepth => ?_⟩
    rcases hsettles depth with hok | ⟨hle, -⟩
    · unfold Store.perform
      rw [show Eval.program depth 0 program Store.start = _ from hok]
    · have hpos : 0 < maxFrames := by decide
      omega
  · have hnever := houtcome.of_runFor_error hrun hroom
    unfold Store.perform at hperform
    split at hperform
    · next hok => exact absurd hok (hnever depth _ _)
    · next stop _ _ =>
      cases hperform
      cases stop with
      | error e' => exact ⟨e', rfl⟩
      | tooDeep => exact absurd rfl hdeep

/-- The factorial of a value, by a function that calls itself and returns early. -/
def factorial (argument : Expr) : Program :=
  [.bind "factorial" (.function (some "factorial") ["n"]
    [.eval (.conditional (.binary (.identifier "n") .lessThan (.integer 2))
        [.ret (.integer 1)] none),
      .eval (.binary (.identifier "n") .multiply (.call (.identifier "factorial")
        [.binary (.identifier "n") .subtract (.integer 1)]))]),
    .eval (.call (.identifier "factorial") [argument])]

/-- Both engines find the factorial of an integer, and neither finds that of a boolean. -/
theorem factorial_agrees :
    (∃ c m w W, Compiler.start.compile (factorial (.integer 4)) = (.ok (), c) ∧
      (Machine.start c.bytecode).runFor 200 = (.ok (), m) ∧
      Store.start.evaluate 0 (factorial (.integer 4)) = (.ok w, World.store W) ∧
      m.lastPopped.Related c.stage W w) ∧
    ∃ c e m e', Compiler.start.compile (factorial (.boolean true)) = (.ok (), c) ∧
      (Machine.start c.bytecode).runFor 200 = (.error (.error e), m) ∧ e.isOverflow = false ∧
      (Store.start.perform (Eval.program 10 0 (factorial (.boolean true)))).1 =
        .error (.error e') := by
  refine ⟨?_, ?_⟩
  · have hregular : (factorial (.integer 4)).Regular := by decide +kernel
    have hok : (Compiler.start.compile (factorial (.integer 4))).1.toOption.isSome = true := by
      decide +kernel
    have hends : ((Machine.start
        (Compiler.start.compile (factorial (.integer 4))).2.bytecode).runFor 200).1 = .ok () := by
      decide +kernel
    cases hcompile : Compiler.start.compile (factorial (.integer 4)) with
    | mk result c =>
      rw [hcompile] at hok hends
      cases result with
      | error e => cases hok
      | ok u =>
        cases hrun : (Machine.start c.bytecode).runFor 200 with
        | mk result m =>
          rw [hrun] at hends
          cases hends
          obtain ⟨w, W, -, hrelated, hvalue⟩ := (hregular.engines_agree hcompile 200).1 m hrun
          exact ⟨c, m, w, W, rfl, hrun, hvalue Store.callDepth (by decide), hrelated⟩
  · have hregular : (factorial (.boolean true)).Regular := by decide +kernel
    have hok : (Compiler.start.compile (factorial (.boolean true))).1.toOption.isSome = true := by
      decide +kernel
    have hfails : ((Machine.start
        (Compiler.start.compile (factorial (.boolean true))).2.bytecode).runFor 200).1 =
          .error (.error (.unorderedTypes .integer .boolean)) := by
      decide +kernel
    have hvalue : ((Store.start.perform
        (Eval.program 10 0 (factorial (.boolean true)))).1.map fun _ => ()) =
          .error (.error (.typeMismatch .boolean .lessThan .integer)) := by
      decide +kernel
    have hterminates : (Store.start.perform
        (Eval.program 10 0 (factorial (.boolean true)))).1 ≠ .error .tooDeep := by
      intro htooDeep
      rw [htooDeep] at hvalue
      cases hvalue
    cases hcompile : Compiler.start.compile (factorial (.boolean true)) with
    | mk result c =>
      rw [hcompile] at hok hfails
      cases result with
      | error e => cases hok
      | ok u =>
        cases hrun : (Machine.start c.bytecode).runFor 200 with
        | mk result m =>
          rw [hrun] at hfails
          cases hfails
          obtain ⟨e', he'⟩ := (hregular.engines_agree hcompile 200).2 _ m hrun rfl 10 _ _ rfl
            hterminates
          exact ⟨c, _, m, e', rfl, hrun, rfl, he'⟩

end Scriptlet
