import Scriptlet.Proofs.Rollback

/-!
# Compilation, move by move

Compilation is written as a function along the tree, and all that can be seen of a run of it is the
state in the end.  What is true in between needs the states in between, and these are what this
module is about.

A `Gen.Job` is something that compilation sets out to do: a tree to compile, an instruction to emit,
a block to close.  `Job.run` says what the job does as a whole, in terms of compilation as it is
written.  `Job.step` only makes the first move and lists the jobs that are left then.  So
compilation becomes a machine that keeps a list of jobs, and `Gen.advance` makes one move of it: the
first job of the list gives way to what is left of it.

* `Job.run_eq`: a job is its first move and then the jobs that are left, one behind the other.
* `Gen.runAll_advanceFor`: so after any number of moves, doing what is left comes to the same end.
* `Gen.stmts_finishes`: after enough moves nothing is left, or compilation has failed, and the state
  is that of the function along the tree.
* `Job.step_touches`: a move changes the buffers at most once.  It emits one instruction, fills in
  one jump, takes one instruction back or turns one into a return, opens a buffer or closes one.

A job that closes a block or a body carries what it closes, the statements and the state of
compilation in front of them.  The statements matter for nothing that the job does, and of the state
only the position does; both are there to be spoken about.
-/

namespace Scriptlet

namespace Gen

/-- Compiles a block that stands for a value. -/
def branch (block : List Stmt) : Gen Unit := do
  let start ← position
  stmts block
  closeBranch start

/-- Compiles a conditional from behind its consequence; its first jump stands at `toAlternative`. -/
def otherwise (toAlternative : Nat) (alternative : Option (List Stmt)) : Gen Unit := do
  let toEnd ← emitAt (.jump placeholder)
  patchHere toAlternative
  match alternative with
  | none => emit .pushNull
  | some alternative => branch alternative
  patchHere toEnd

/-- Compiles a conditional from behind its condition. -/
def choose (consequence : List Stmt) (alternative : Option (List Stmt)) : Gen Unit := do
  let toAlternative ← emitAt (.jumpNotTruthy placeholder)
  branch consequence
  otherwise toAlternative alternative

/-- Emits a return at the end of a body that does not end in one. -/
def endBody : Gen Unit := do
  if !(← get).buffers.inner.endsIn .returnValue then
    emit .returnNull

/-- Emits code that makes a closure of a function whose captures are loaded. -/
def makeClosure (code : Code) (table : SymbolTable) (parameters : Nat) : Gen Unit := do
  let index ← addConstant fun stamp => .routine stamp ⟨code, table.definitions, parameters⟩
  emit (.closure index table.captures.size)

/-- Closes a function whose body is closed. -/
def leaveFunction (parameters : Nat) : Gen Unit := do
  let (code, table) ← leave
  checkLimit .locals table.definitions
  checkLimit .parameters parameters
  checkLimit .captures table.captures.size
  loadAll table.captures.toList
  makeClosure code table parameters

/-! ## Jobs -/

/-- Something that compilation sets out to do. -/
inductive Job where
  | expr (e : Expr)
  | exprs (es : List Expr)
  | entries (pairs : List (Expr × Expr))
  | stmt (s : Stmt)
  | stmts (body : List Stmt)
  | emit (i : Instruction)
  | operate (operator : Operator) (i? : Option Instruction)
  /-- An instruction whose operand is checked first. -/
  | counted (resource : Resource) (count : Nat) (i : Instruction)
  | bind (name : String)
  | choose (consequence : List Stmt) (alternative : Option (List Stmt))
  | otherwise (toAlternative : Nat) (alternative : Option (List Stmt))
  | patch (jump : Nat)
  | branch (block : List Stmt)
  | closeBranch (block : List Stmt) (before : Compiler)
  | dropLast (block : List Stmt) (before : Compiler)
  | closeBody (body : List Stmt) (before : Compiler)
  | returnLast (body : List Stmt) (before : Compiler)
  | endBody
  | leaveFunction (parameters : Nat)
  | makeClosure (code : Code) (table : SymbolTable) (parameters : Nat)

namespace Job

/-- What a job does as a whole. -/
def run : Job → Gen Unit
  | expr e => Gen.expr e
  | exprs es => Gen.exprs es
  | entries pairs => Gen.entries pairs
  | stmt s => Gen.stmt s
  | stmts body => Gen.stmts body
  | emit i => Gen.emit i
  | operate operator i? => emitOperator operator i?
  | counted resource count i => do
    checkLimit resource count
    Gen.emit i
  | bind name => Gen.bind name
  | choose consequence alternative => Gen.choose consequence alternative
  | otherwise toAlternative alternative => Gen.otherwise toAlternative alternative
  | patch jump => patchHere jump
  | branch block => Gen.branch block
  | closeBranch _ before => Gen.closeBranch before.buffers.inner.code.size
  | dropLast _ _ => modifyBuffer (·.dropLast)
  | closeBody _ _ => Gen.closeBody
  | returnLast _ _ => modifyBuffer (·.returnLast)
  | endBody => Gen.endBody
  | leaveFunction parameters => Gen.leaveFunction parameters
  | makeClosure code table parameters => Gen.makeClosure code table parameters

end Job

/-- Does jobs, one behind the other. -/
def runAll : List Job → Gen Unit
  | [] => pure ()
  | job :: rest => do
    job.run
    runAll rest

theorem runAll_append (js ks : List Job) :
    runAll (js ++ ks) = runAll js >>= fun _ => runAll ks := by
  induction js with
  | nil => simp [runAll]
  | cons job rest ih => simp [runAll, ih]

theorem runAll_loads (symbols : List Symbol) :
    runAll (symbols.map fun symbol => .emit symbol.load) = loadAll symbols := by
  induction symbols with
  | nil => rfl
  | cons symbol rest ih => simp [runAll, Job.run, loadAll, ih, load_eq]

namespace Job

/-- The first move for an expression. -/
def stepExpr : Expr → Gen (List Job)
  | .identifier name => do
    let symbol ← resolve name
    return [emit symbol.load]
  | .integer value => do
    let index ← addConstant fun _ => .integer value
    return [emit (.constant index)]
  | .boolean value => return [emit (if value then .pushTrue else .pushFalse)]
  | .string contents => do
    let index ← addConstant fun stamp => .string stamp contents
    return [emit (.constant index)]
  | .array elements =>
    return [exprs elements, counted .elements elements.length (.array elements.length)]
  | .hash pairs =>
    return [entries pairs, counted .entries (2 * pairs.length) (.hash (2 * pairs.length))]
  | .unary operator operand => return [expr operand, operate operator (unaryInstruction? operator)]
  | .binary left operator right =>
    return if operator = .lessThan then [expr right, expr left, emit .greaterThan]
      else [expr left, expr right, operate operator (binaryInstruction? operator)]
  | .conditional condition consequence alternative =>
    return [expr condition, choose consequence alternative]
  | .function name parameters body => do
    openFunction name parameters
    let before ← get
    return [stmts body, closeBody body before, leaveFunction parameters.length]
  | .call callee arguments =>
    return [expr callee, exprs arguments,
      counted .arguments arguments.length (.call arguments.length)]
  | .index collection key => return [expr collection, expr key, emit .index]

/-- The first move of a job; the result lists the jobs that are left. -/
def step : Job → Gen (List Job)
  | expr e => stepExpr e
  | exprs [] => return []
  | exprs (e :: rest) => return [expr e, exprs rest]
  | entries [] => return []
  | entries ((key, value) :: rest) => do
    if mayBeKey key then
      return [expr key, expr value, entries rest]
    else
      throw (.invalidHashKey key)
  | stmt (.bind name value) => return [expr value, bind name]
  | stmt (.ret value) => return [expr value, emit .returnValue]
  | stmt (.eval value) => return [expr value, emit .pop]
  | stmts [] => return []
  | stmts (s :: rest) => return [stmt s, stmts rest]
  | emit i => do
    Gen.emit i
    return []
  | operate _ (some i) => return [emit i]
  | operate operator none => throw (.unknownOperator operator)
  | counted resource count i => do
    checkLimit resource count
    return [emit i]
  | bind name => do
    let symbol ← define name
    checkLimit symbol.slots symbol.index
    return [emit symbol.store]
  | choose consequence alternative => do
    let toAlternative ← position
    return [emit (.jumpNotTruthy placeholder), branch consequence,
      otherwise toAlternative alternative]
  | otherwise toAlternative alternative => do
    let toEnd ← position
    return [emit (.jump placeholder), patch toAlternative,
      match alternative with
      | none => emit .pushNull
      | some alternative => branch alternative,
      patch toEnd]
  | patch jump => do
    patchHere jump
    return []
  | branch block => do
    let before ← get
    return [stmts block, closeBranch block before]
  | closeBranch block before => do
    let buffer := (← get).buffers.inner
    if before.buffers.inner.code.size < buffer.code.size && buffer.endsIn .pop then
      return [dropLast block before]
    else
      return [emit .pushNull]
  | dropLast _ _ => do
    modifyBuffer (·.dropLast)
    return []
  | closeBody body before => do
    if (← get).buffers.inner.endsIn .pop then
      return [returnLast body before, endBody]
    else
      return [endBody]
  | returnLast _ _ => do
    modifyBuffer (·.returnLast)
    return []
  | endBody => do
    if !(← get).buffers.inner.endsIn .returnValue then
      return [emit .returnNull]
    else
      return []
  | leaveFunction parameters => do
    let (code, table) ← leave
    checkLimit .locals table.definitions
    checkLimit .parameters parameters
    checkLimit .captures table.captures.size
    return table.captures.toList.map (fun symbol => emit symbol.load) ++
      [makeClosure code table parameters]
  | makeClosure code table parameters => do
    let index ← addConstant fun stamp => .routine stamp ⟨code, table.definitions, parameters⟩
    return [emit (.closure index table.captures.size)]

theorem stepExpr_run (e : Expr) : Gen.expr e = stepExpr e >>= runAll := by
  cases e with
  | conditional condition consequence alternative =>
    cases alternative <;>
      simp [Gen.expr, stepExpr, runAll, run, Gen.choose, Gen.otherwise, Gen.branch]
  | binary left operator right =>
    by_cases h : operator = .lessThan <;> simp [Gen.expr, stepExpr, runAll, run, h]
  | function name parameters body =>
    simp [Gen.expr, stepExpr, runAll, run, closeFunction, Gen.leaveFunction, Gen.makeClosure]
  | _ => simp [Gen.expr, stepExpr, runAll, run, load_eq]

theorem bind_run (name : String) : Gen.bind name = step (bind name) >>= runAll := by
  rw [step, bind_assoc]
  refine congrArg (define name >>= ·) (funext fun symbol => ?_)
  cases hplace : symbol.place <;>
    simp [Symbol.slots, Symbol.store, hplace, runAll, run]

theorem closeBranch_run (block : List Stmt) (before : Compiler) :
    Gen.closeBranch before.buffers.inner.code.size =
      step (closeBranch block before) >>= runAll := by
  rw [step, bind_assoc]
  refine congrArg ((get : Gen Compiler) >>= ·) (funext fun c => ?_)
  dsimp only
  split <;> simp [runAll, run]

theorem endBody_run : Gen.endBody = step endBody >>= runAll := by
  rw [step, bind_assoc]
  refine congrArg ((get : Gen Compiler) >>= ·) (funext fun c => ?_)
  split <;> simp [runAll, run]

theorem closeBody_run (body : List Stmt) (before : Compiler) :
    Gen.closeBody = step (closeBody body before) >>= runAll := by
  rw [step, bind_assoc]
  refine congrArg ((get : Gen Compiler) >>= ·) (funext fun c => ?_)
  split <;> simp [runAll, run, Gen.endBody]

/-- A job is its first move and then the jobs that are left. -/
theorem run_eq (job : Job) : job.run = job.step >>= runAll := by
  cases job with
  | expr e => exact stepExpr_run e
  | exprs es => cases es <;> simp [run, step, runAll, Gen.exprs]
  | entries pairs =>
    cases pairs with
    | nil => simp [run, step, runAll, Gen.entries]
    | cons pair rest =>
      obtain ⟨key, value⟩ := pair
      by_cases h : mayBeKey key
      · simp [run, step, runAll, Gen.entries, h]
      · simp only [run, step, Gen.entries, h]
        rfl
  | stmt s => cases s <;> simp [run, step, runAll, Gen.stmt]
  | stmts body => cases body <;> simp [run, step, runAll, Gen.stmts]
  | emit i => simp [run, step, runAll]
  | operate operator i? =>
    cases i? with
    | none => rfl
    | some i => simp [run, step, runAll, emitOperator]
  | counted resource count i => simp [run, step, runAll]
  | bind name => exact bind_run name
  | choose consequence alternative => simp [run, step, runAll, Gen.choose, emitAt]
  | otherwise toAlternative alternative =>
    cases alternative <;> simp [run, step, runAll, Gen.otherwise, emitAt]
  | patch jump => simp [run, step, runAll]
  | branch block =>
    funext c
    have hrest : (Gen.stmts block >>= fun _ => Gen.closeBranch c.buffers.inner.code.size) =
        runAll [stmts block, closeBranch block c] := by simp [runAll, run]
    exact congrFun hrest c
  | closeBranch block before => exact closeBranch_run block before
  | dropLast block before => simp [run, step, runAll]
  | closeBody body before => exact closeBody_run body before
  | returnLast body before => simp [run, step, runAll]
  | endBody => exact endBody_run
  | leaveFunction parameters =>
    simp [run, step, runAll, Gen.leaveFunction, runAll_append, runAll_loads]
  | makeClosure code table parameters => simp [run, step, runAll, Gen.makeClosure]

/-- A job that neither changes what has been emitted nor leaves something to be changed later. -/
def Simple : Job → Prop
  | otherwise _ _ | patch _ | closeBranch _ _ | dropLast _ _ | closeBody _ _ | returnLast _ _ =>
    False
  | _ => True

/-- What the first move of a job leaves to be done, and in which state.  Only a few moves leave more
than simple jobs. -/
inductive Leaves : Job → Compiler → List Job → Compiler → Prop
  | simple {job : Job} {js : List Job} {c c' : Compiler} (h : ∀ j ∈ js, j.Simple) :
      Leaves job c js c'
  | choose {consequence : List Stmt} {alternative : Option (List Stmt)} {c : Compiler} :
      Leaves (choose consequence alternative) c
        [emit (.jumpNotTruthy placeholder), branch consequence,
          otherwise c.buffers.inner.code.size alternative] c
  | otherwise {toAlternative : Nat} {alternative : Option (List Stmt)} {between : Job}
      {c : Compiler} (h : between = emit .pushNull ∨ ∃ block, between = branch block) :
      Leaves (otherwise toAlternative alternative) c
        [emit (.jump placeholder), patch toAlternative, between,
          patch c.buffers.inner.code.size] c
  | branch {block : List Stmt} {c : Compiler} :
      Leaves (branch block) c [stmts block, closeBranch block c] c
  | closeBranch {block : List Stmt} {before c : Compiler}
      (hsize : before.buffers.inner.code.size < c.buffers.inner.code.size)
      (hpop : c.buffers.inner.endsIn .pop) :
      Leaves (closeBranch block before) c [dropLast block before] c
  | function {name : Option String} {parameters : List String} {body : List Stmt}
      {c c' : Compiler} (hopen : openFunction name parameters c = .ok () c') :
      Leaves (expr (.function name parameters body)) c
        [stmts body, closeBody body c', leaveFunction parameters.length] c'
  | closeBody {body : List Stmt} {before c : Compiler} (hpop : c.buffers.inner.endsIn .pop) :
      Leaves (closeBody body before) c [returnLast body before, endBody] c

theorem expr_leaves {e : Expr} {js : List Job} {c c' : Compiler}
    (h : stepExpr e c = .ok js c') : Leaves (expr e) c js c' := by
  cases e with
  | identifier name =>
    obtain ⟨_, _, -, h⟩ := bind_eq_ok.1 h
    cases h
    exact .simple (by simp [Simple])
  | integer value =>
    obtain ⟨_, _, -, h⟩ := bind_eq_ok.1 h
    cases h
    exact .simple (by simp [Simple])
  | string contents =>
    obtain ⟨_, _, -, h⟩ := bind_eq_ok.1 h
    cases h
    exact .simple (by simp [Simple])
  | binary left operator right =>
    cases h
    refine .simple ?_
    split <;> simp [Simple]
  | function name parameters body =>
    obtain ⟨_, c₁, hopen, h⟩ := bind_eq_ok.1 h
    cases h
    exact .function hopen
  | _ =>
    cases h
    exact .simple (by simp [Simple])

/-- The moves, case by case. -/
theorem step_leaves {job : Job} {js : List Job} {c c' : Compiler}
    (h : job.step c = .ok js c') : Leaves job c js c' := by
  cases job with
  | expr e => exact expr_leaves h
  | exprs es =>
    cases es <;> cases h <;> exact .simple (by simp [Simple])
  | entries pairs =>
    cases pairs with
    | nil =>
      cases h
      exact .simple (by simp)
    | cons pair rest =>
      rw [step] at h
      split at h
      · cases h
        exact .simple (by simp [Simple])
      · cases h
  | stmt s =>
    cases s <;> cases h <;> exact .simple (by simp [Simple])
  | stmts body =>
    cases body <;> cases h <;> exact .simple (by simp [Simple])
  | operate operator i? =>
    cases i? with
    | none => cases h
    | some i =>
      cases h
      exact .simple (by simp [Simple])
  | emit i =>
    cases h
    exact .simple (by simp)
  | counted resource count i =>
    obtain ⟨_, _, -, h⟩ := bind_eq_ok.1 h
    cases h
    exact .simple (by simp [Simple])
  | bind name =>
    obtain ⟨_, _, -, h⟩ := bind_eq_ok.1 h
    obtain ⟨_, _, -, h⟩ := bind_eq_ok.1 h
    cases h
    exact .simple (by simp [Simple])
  | choose consequence alternative =>
    cases h
    exact .choose
  | otherwise toAlternative alternative =>
    cases h
    refine .otherwise ?_
    cases alternative with
    | none => exact .inl rfl
    | some block => exact .inr ⟨block, rfl⟩
  | patch jump =>
    obtain ⟨_, _, -, h⟩ := bind_eq_ok.1 h
    cases h
    exact .simple (by simp)
  | branch block =>
    cases h
    exact .branch
  | closeBranch block before =>
    obtain ⟨_, _, hget, h⟩ := bind_eq_ok.1 h
    cases hget
    split at h
    · next hends =>
      cases h
      rw [Bool.and_eq_true, decide_eq_true_eq] at hends
      exact .closeBranch hends.1 hends.2
    · cases h
      exact .simple (by simp [Simple])
  | dropLast block before =>
    cases h
    exact .simple (by simp)
  | closeBody body before =>
    obtain ⟨_, _, hget, h⟩ := bind_eq_ok.1 h
    cases hget
    split at h
    · next hpop =>
      cases h
      exact .closeBody hpop
    · cases h
      exact .simple (by simp [Simple])
  | returnLast body before =>
    cases h
    exact .simple (by simp)
  | endBody =>
    obtain ⟨_, _, -, h⟩ := bind_eq_ok.1 h
    split at h <;> cases h <;> exact .simple (by simp [Simple])
  | leaveFunction parameters =>
    obtain ⟨_, _, -, h⟩ := bind_eq_ok.1 h
    obtain ⟨_, _, -, h⟩ := bind_eq_ok.1 h
    obtain ⟨_, _, -, h⟩ := bind_eq_ok.1 h
    obtain ⟨_, _, -, h⟩ := bind_eq_ok.1 h
    cases h
    refine .simple fun j hj => ?_
    rcases List.mem_append.1 hj with hj | hj
    · obtain ⟨symbol, -, rfl⟩ := List.mem_map.1 hj
      trivial
    · obtain rfl := List.mem_singleton.1 hj
      trivial
  | makeClosure code table parameters =>
    obtain ⟨_, _, -, h⟩ := bind_eq_ok.1 h
    cases h
    exact .simple (by simp [Simple])

end Job

/-! ## What a move does to the buffers -/

/-- What a job does to the buffers by its first move: nothing, or one thing. -/
inductive Touches : Job → Nest Buffer → Nest Buffer → Prop
  | nothing {job : Job} {buffers : Nest Buffer} : Touches job buffers buffers
  | emit {i : Instruction} {buffers : Nest Buffer} :
      Touches (.emit i) buffers (buffers.modify (·.emit i))
  | patch {jump : Nat} {buffers : Nest Buffer} :
      Touches (.patch jump) buffers (buffers.modify (·.patch jump buffers.inner.code.size))
  | dropLast {block : List Stmt} {before : Compiler} {buffers : Nest Buffer} :
      Touches (.dropLast block before) buffers (buffers.modify (·.dropLast))
  | returnLast {body : List Stmt} {before : Compiler} {buffers : Nest Buffer} :
      Touches (.returnLast body before) buffers (buffers.modify (·.returnLast))
  | enter {name : Option String} {parameters : List String} {body : List Stmt}
      {buffers : Nest Buffer} :
      Touches (.expr (.function name parameters body)) buffers (buffers.enter {})
  | leave {parameters : Nat} {buffers : Nest Buffer} :
      Touches (.leaveFunction parameters) buffers buffers.leave

/-- A job that leaves the buffers alone by its first move, even if it fails. -/
theorem Within.touches {job : Job} (h : Within .sparing job.step) (c : Compiler) :
    Touches job c.buffers (Gen.after (job.step c)).buffers := by
  have hbuffers : (Gen.after (job.step c)).buffers = c.buffers := h.after c
  rw [hbuffers]
  exact .nothing

theorem patch_touches (jump : Nat) (c : Compiler) :
    Touches (.patch jump) c.buffers (after (Job.step (.patch jump) c)).buffers := by
  cases hpatch : patchHere jump c with
  | ok u c₁ =>
    have hstep : Job.step (.patch jump) c = .ok [] c₁ := bind_of_ok hpatch
    obtain ⟨-, rfl⟩ := patchHere_code hpatch
    rw [hstep]
    exact .patch
  | error e c₁ =>
    have hstep : Job.step (.patch jump) c = .error e c₁ := bind_of_error hpatch
    rw [hstep, patchHere_eq_error hpatch]
    exact .nothing

theorem function_touches (name : Option String) (parameters : List String) (body : List Stmt)
    (c : Compiler) : Touches (.expr (.function name parameters body)) c.buffers
      (after (Job.step (.expr (.function name parameters body)) c)).buffers := by
  cases hopen : openFunction name parameters c with
  | ok u c₁ =>
    have hstep : (after (Job.step (.expr (.function name parameters body)) c)) = c₁ :=
      congrArg after (bind_of_ok hopen)
    rw [hstep, (openFunction_code hopen).2]
    exact .enter
  | error e c₁ => exact absurd hopen (openFunction_ne_error name parameters)

theorem leaveFunction_touches (parameters : Nat) (c : Compiler) :
    Touches (.leaveFunction parameters) c.buffers
      (after (Job.step (.leaveFunction parameters) c)).buffers := by
  have hrest : ∀ closed : Code × SymbolTable, Within .sparing (do
      checkLimit .locals closed.2.definitions
      checkLimit .parameters parameters
      checkLimit .captures closed.2.captures.size
      return closed.2.captures.toList.map (fun symbol => Job.emit symbol.load) ++
        [.makeClosure closed.1 closed.2 parameters]) := fun closed =>
    (within_checkLimit _ _).bind fun _ => (within_checkLimit _ _).bind fun _ =>
      (within_checkLimit _ _).bind fun _ => within_pure _
  have hstep : (after (Job.step (.leaveFunction parameters) c)).buffers = c.buffers.leave :=
    (hrest (c.buffers.inner.code, c.tables.inner)).after
      { c with tables := c.tables.leave, buffers := c.buffers.leave }
  rw [hstep]
  exact .leave

theorem expr_touches (e : Expr) (c : Compiler) :
    Touches (.expr e) c.buffers (after (Job.step (.expr e) c)).buffers := by
  cases e with
  | identifier name =>
    refine Within.touches ?_ c
    exact (within_resolve trivial).bind fun _ => within_pure _
  | integer value =>
    refine Within.touches ?_ c
    exact (within_addConstant _).bind fun _ => within_pure _
  | string contents =>
    refine Within.touches ?_ c
    exact (within_addConstant _).bind fun _ => within_pure _
  | function name parameters body => exact function_touches name parameters body c
  | _ => exact .nothing

/-- A move changes the buffers at most once, also if it fails. -/
theorem Job.step_touches (job : Job) (c : Compiler) :
    Touches job c.buffers (after (job.step c)).buffers := by
  cases job with
  | expr e => exact expr_touches e c
  | exprs es => cases es <;> exact .nothing
  | entries pairs =>
    cases pairs with
    | nil => exact .nothing
    | cons pair rest =>
      refine Within.touches ?_ c
      obtain ⟨key, value⟩ := pair
      rw [step]
      split
      · exact within_pure _
      · exact within_throw trivial
  | stmt s => cases s <;> exact .nothing
  | stmts body => cases body <;> exact .nothing
  | emit i => exact .emit
  | operate operator i? => cases i? <;> exact .nothing
  | counted resource count i =>
    refine Within.touches ?_ c
    exact (within_checkLimit resource count).bind fun _ => within_pure _
  | bind name =>
    refine Within.touches ?_ c
    refine (within_define name).bind fun _ => ?_
    exact (within_checkLimit _ _).bind fun _ => within_pure _
  | choose consequence alternative => exact .nothing
  | otherwise toAlternative alternative => exact .nothing
  | patch jump => exact patch_touches jump c
  | branch block => exact .nothing
  | closeBranch block before =>
    refine Within.touches ?_ c
    refine within_get.bind fun c => ?_
    dsimp only
    split <;> exact within_pure _
  | dropLast block before => exact .dropLast
  | closeBody body before =>
    refine Within.touches ?_ c
    refine within_get.bind fun c => ?_
    split <;> exact within_pure _
  | returnLast body before => exact .returnLast
  | endBody =>
    refine Within.touches ?_ c
    refine within_get.bind fun c => ?_
    split <;> exact within_pure _
  | leaveFunction parameters => exact leaveFunction_touches parameters c
  | makeClosure code table parameters =>
    refine Within.touches ?_ c
    exact (within_addConstant _).bind fun _ => within_pure _

/-! ## Moves -/

/-- Makes the first move of the first job.  Without a job there is no move to make. -/
def advance : List Job → Gen (List Job)
  | [] => return []
  | job :: rest => do
    let left ← job.step
    return left ++ rest

/-- Makes a number of moves. -/
def advanceFor : (moves : Nat) → List Job → Gen (List Job)
  | 0, jobs => return jobs
  | moves + 1, jobs => do
    let left ← advance jobs
    advanceFor moves left

theorem runAll_advance (jobs : List Job) : runAll jobs = advance jobs >>= runAll := by
  cases jobs with
  | nil => simp [runAll, advance]
  | cons job rest => simp [runAll, advance, job.run_eq, runAll_append]

/-- What is left after some moves comes to the same end as all of the jobs. -/
theorem runAll_advanceFor (moves : Nat) (jobs : List Job) :
    runAll jobs = advanceFor moves jobs >>= runAll := by
  induction moves generalizing jobs with
  | zero => simp [advanceFor]
  | succ moves ih =>
    rw [runAll_advance, advanceFor, bind_assoc]
    exact congrArg (advance jobs >>= ·) (funext ih)

theorem advanceFor_add (m n : Nat) (jobs : List Job) :
    advanceFor (m + n) jobs = advanceFor m jobs >>= advanceFor n := by
  induction m generalizing jobs with
  | zero => simp [advanceFor]
  | succ m ih =>
    rw [Nat.succ_add, advanceFor, advanceFor, bind_assoc]
    exact congrArg (advance jobs >>= ·) (funext ih)

/-! ## The end of compilation -/

/-- Enough moves do the jobs, in front of any others. -/
def Finishes (jobs : List Job) : Prop :=
  ∀ rest c, ∃ moves, advanceFor moves (jobs ++ rest) c = (runAll jobs >>= fun _ => pure rest) c

theorem finishes_nil : Finishes [] := fun rest c => ⟨0, by simp [advanceFor, runAll]⟩

theorem Finishes.append {js ks : List Job} (hjs : Finishes js) (hks : Finishes ks) :
    Finishes (js ++ ks) := by
  intro rest c
  obtain ⟨m, hm⟩ := hjs (ks ++ rest) c
  rw [← List.append_assoc] at hm
  cases hdone : runAll js c with
  | error e c₁ =>
    refine ⟨m, ?_⟩
    rw [hm, runAll_append, bind_of_error hdone, bind_of_error (bind_of_error hdone)]
  | ok u c₁ =>
    obtain ⟨n, hn⟩ := hks rest c₁
    refine ⟨m + n, ?_⟩
    rw [advanceFor_add, bind_of_ok (hm.trans (bind_of_ok hdone)), hn, runAll_append, bind_assoc,
      bind_of_ok hdone]

theorem Finishes.cons {job : Job} {js : List Job} (hjob : Finishes [job]) (hjs : Finishes js) :
    Finishes (job :: js) := hjob.append hjs

/-- The jobs that a first move leaves finish. -/
def FinishesAfter (x : Gen (List Job)) : Prop := ∀ js c c', x c = .ok js c' → Finishes js

theorem FinishesAfter.of_pure {js : List Job} (h : Finishes js) : FinishesAfter (pure js) := by
  intro js c c' hstep
  cases hstep
  exact h

theorem FinishesAfter.bind {α : Type} {x : Gen α} {f : α → Gen (List Job)}
    (h : ∀ a, FinishesAfter (f a)) : FinishesAfter (x >>= f) := by
  intro js c c' hstep
  obtain ⟨a, _, -, hrest⟩ := bind_eq_ok.1 hstep
  exact h a _ _ _ hrest

theorem finishesAfter_throw (e : CompileError) : FinishesAfter (throw e) := by
  intro js c c' hstep
  cases hstep

theorem finishes_of_step {job : Job} (h : FinishesAfter job.step) : Finishes [job] := by
  intro rest c
  have hrun : runAll [job] = job.step >>= runAll := by simp [runAll, job.run_eq]
  cases hstep : job.step c with
  | error e c₁ =>
    refine ⟨1, ?_⟩
    have hmove : advance (job :: rest) c = .error e c₁ := bind_of_error hstep
    rw [hrun]
    exact (bind_of_error hmove).trans (bind_of_error (bind_of_error hstep)).symm
  | ok js c₁ =>
    obtain ⟨n, hn⟩ := h js c c₁ hstep rest c₁
    refine ⟨n + 1, ?_⟩
    have hmove : advance (job :: rest) c = .ok (js ++ rest) c₁ := bind_of_ok hstep
    rw [hrun, bind_assoc, bind_of_ok hstep, ← hn]
    exact bind_of_ok hmove

theorem emit_finishes (i : Instruction) : Finishes [.emit i] :=
  finishes_of_step (.bind fun _ => .of_pure finishes_nil)

theorem operate_finishes (operator : Operator) (i? : Option Instruction) :
    Finishes [.operate operator i?] := by
  refine finishes_of_step ?_
  cases i? with
  | none => exact finishesAfter_throw _
  | some i => exact .of_pure (emit_finishes i)

theorem counted_finishes (resource : Resource) (count : Nat) (i : Instruction) :
    Finishes [.counted resource count i] :=
  finishes_of_step (.bind fun _ => .of_pure (emit_finishes i))

theorem bind_finishes (name : String) : Finishes [.bind name] :=
  finishes_of_step (.bind fun _ => .bind fun _ => .of_pure (emit_finishes _))

theorem patch_finishes (jump : Nat) : Finishes [.patch jump] :=
  finishes_of_step (.bind fun _ => .of_pure finishes_nil)

theorem dropLast_finishes (block : List Stmt) (before : Compiler) :
    Finishes [.dropLast block before] :=
  finishes_of_step (.bind fun _ => .of_pure finishes_nil)

theorem returnLast_finishes (body : List Stmt) (before : Compiler) :
    Finishes [.returnLast body before] :=
  finishes_of_step (.bind fun _ => .of_pure finishes_nil)

theorem closeBranch_finishes (block : List Stmt) (before : Compiler) :
    Finishes [.closeBranch block before] := by
  refine finishes_of_step (.bind fun c => ?_)
  dsimp only
  split
  · exact .of_pure (dropLast_finishes block before)
  · exact .of_pure (emit_finishes _)

theorem endBody_finishes : Finishes [.endBody] := by
  refine finishes_of_step (.bind fun c => ?_)
  split
  · exact .of_pure (emit_finishes _)
  · exact .of_pure finishes_nil

theorem closeBody_finishes (body : List Stmt) (before : Compiler) :
    Finishes [.closeBody body before] := by
  refine finishes_of_step (.bind fun c => ?_)
  split
  · exact .of_pure ((returnLast_finishes body before).cons endBody_finishes)
  · exact .of_pure endBody_finishes

theorem makeClosure_finishes (code : Code) (table : SymbolTable) (parameters : Nat) :
    Finishes [.makeClosure code table parameters] :=
  finishes_of_step (.bind fun _ => .of_pure (emit_finishes _))

theorem loads_finish (symbols : List Symbol) :
    Finishes (symbols.map fun symbol => .emit symbol.load) := by
  induction symbols with
  | nil => exact finishes_nil
  | cons symbol rest ih => exact (emit_finishes _).cons ih

theorem leaveFunction_finishes (parameters : Nat) : Finishes [.leaveFunction parameters] :=
  finishes_of_step (.bind fun ⟨code, table⟩ => .bind fun _ => .bind fun _ => .bind fun _ =>
    .of_pure ((loads_finish _).append (makeClosure_finishes code table parameters)))

theorem branch_finishes {block : List Stmt} (h : Finishes [.stmts block]) :
    Finishes [.branch block] :=
  finishes_of_step (.bind fun _ => .of_pure (h.cons (closeBranch_finishes _ _)))

theorem otherwise_finishes {toAlternative : Nat} {alternative : Option (List Stmt)}
    (h : ∀ block, alternative = some block → Finishes [.stmts block]) :
    Finishes [.otherwise toAlternative alternative] := by
  refine finishes_of_step (.bind fun toEnd => .of_pure ?_)
  refine (emit_finishes _).cons ((patch_finishes _).cons (Finishes.cons ?_ (patch_finishes _)))
  cases alternative with
  | none => exact emit_finishes _
  | some block => exact branch_finishes (h block rfl)

theorem choose_finishes {consequence : List Stmt} {alternative : Option (List Stmt)}
    (hconsequence : Finishes [.stmts consequence])
    (halternative : ∀ block, alternative = some block → Finishes [.stmts block]) :
    Finishes [.choose consequence alternative] :=
  finishes_of_step (.bind fun _ => .of_pure ((emit_finishes _).cons
    ((branch_finishes hconsequence).cons (otherwise_finishes halternative))))

mutual

theorem expr_finishes : (e : Expr) → Finishes [.expr e]
  | .identifier name => finishes_of_step (.bind fun _ => .of_pure (emit_finishes _))
  | .integer value => finishes_of_step (.bind fun _ => .of_pure (emit_finishes _))
  | .boolean value => finishes_of_step (.of_pure (emit_finishes _))
  | .string contents => finishes_of_step (.bind fun _ => .of_pure (emit_finishes _))
  | .array elements =>
    finishes_of_step (.of_pure ((exprs_finishes elements).cons (counted_finishes _ _ _)))
  | .hash pairs =>
    finishes_of_step (.of_pure ((entries_finishes pairs).cons (counted_finishes _ _ _)))
  | .unary operator operand =>
    finishes_of_step (.of_pure ((expr_finishes operand).cons (operate_finishes _ _)))
  | .binary left operator right => by
    refine finishes_of_step (.of_pure ?_)
    split
    · exact (expr_finishes right).cons ((expr_finishes left).cons (emit_finishes _))
    · exact (expr_finishes left).cons ((expr_finishes right).cons (operate_finishes _ _))
  | .conditional condition consequence alternative => by
    refine finishes_of_step (.of_pure ?_)
    refine (expr_finishes condition).cons (choose_finishes (stmts_finishes consequence) ?_)
    intro block hblock
    cases alternative with
    | none => cases hblock
    | some alternative =>
      cases hblock
      exact stmts_finishes _
  | .function name parameters body =>
    finishes_of_step (.bind fun _ => .bind fun _ => .of_pure ((stmts_finishes body).cons
      ((closeBody_finishes _ _).cons (leaveFunction_finishes _))))
  | .call callee arguments =>
    finishes_of_step (.of_pure ((expr_finishes callee).cons
      ((exprs_finishes arguments).cons (counted_finishes _ _ _))))
  | .index collection key =>
    finishes_of_step (.of_pure ((expr_finishes collection).cons
      ((expr_finishes key).cons (emit_finishes _))))

theorem exprs_finishes : (es : List Expr) → Finishes [.exprs es]
  | [] => finishes_of_step (.of_pure finishes_nil)
  | e :: rest => finishes_of_step (.of_pure ((expr_finishes e).cons (exprs_finishes rest)))

theorem entries_finishes : (pairs : List (Expr × Expr)) → Finishes [.entries pairs]
  | [] => finishes_of_step (.of_pure finishes_nil)
  | (key, value) :: rest => by
    refine finishes_of_step ?_
    rw [Job.step]
    split
    · exact .of_pure ((expr_finishes key).cons
        ((expr_finishes value).cons (entries_finishes rest)))
    · exact finishesAfter_throw _

theorem stmt_finishes : (s : Stmt) → Finishes [.stmt s]
  | .bind name value =>
    finishes_of_step (.of_pure ((expr_finishes value).cons (bind_finishes name)))
  | .ret value => finishes_of_step (.of_pure ((expr_finishes value).cons (emit_finishes _)))
  | .eval value => finishes_of_step (.of_pure ((expr_finishes value).cons (emit_finishes _)))

/-- Statements are done, or refused, after enough moves. -/
theorem stmts_finishes : (body : List Stmt) → Finishes [.stmts body]
  | [] => finishes_of_step (.of_pure finishes_nil)
  | s :: rest => finishes_of_step (.of_pure ((stmt_finishes s).cons (stmts_finishes rest)))

end

end Gen

end Scriptlet
