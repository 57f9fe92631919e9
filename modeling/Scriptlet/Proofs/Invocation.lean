import Scriptlet.Proofs.Simulation

/-!
# Calls beside each other

A call of the machine opens a frame, a call of the evaluator an environment.  The body of the
function then runs under a world with one more environment, and what its code finds in the new frame
is what its tree finds in the new environment: the arguments, the function itself, what the closure
has captured and the names of the program.

* `World.entered` is the world in which a function has been called.
* `Callee` collects what is known of a closure and of the function that it stands for, and
  `Callee.site` and `Callee.fresh` say that the comparison of code and tree may start at the body.
* `Inside` follows the call to where it comes back, whatever the body did to the frame in between.
* `callsAgree` is the induction on how many calls can still be nested.  The machine bounds them by
  its frames, so the evaluator needs no more depth than the machine has frames left.
-/

namespace Scriptlet

open Code Machine Exec Value

variable {final s s' : Stage} {k n ip env outer : Nat} {W W' W₁ : World} {m m₁ m₂ m' : Machine}
  {v w : Value} {vs ws xs ys free : List Value} {is : List Instruction} {literal : FunctionLiteral}
  {stamp stamp' : Stamp} {i : Instruction}

/-! ## Environments of calls -/

theorem Store.lt_next_of_get? {store : Store} {x : String} (h : store.get? env x = some w) :
    env < store.next := by
  by_contra hle
  unfold Store.get? at h
  rw [Array.getElem?_eq_none (Nat.le_of_not_lt hle)] at h
  cases h

namespace World

variable {bindings : List (String × Value)} {names names' : List String}

/-- The world in which a function has been called.  The names can be bound in the new environment,
and so can those around the function. -/
def entered (W : World) (outer : Nat) (bindings : List (String × Value)) (names : List String) :
    World where
  store := W.store.enterCall outer bindings
  made := W.made
  pairs := W.pairs
  scope := fun env x =>
    if env = W.store.next then W.scope outer x ∨ x ∈ names else W.scope env x
  globals := W.globals

theorem scope_entered (x : String) : (W.entered outer bindings names).scope W.store.next x ↔
    W.scope outer x ∨ x ∈ names := Iff.of_eq (if_pos rfl)

theorem scope_entered_of_lt (henv : env < W.store.next) (x : String) :
    (W.entered outer bindings names).scope env x ↔ W.scope env x :=
  Iff.of_eq (if_neg (Nat.ne_of_lt henv))

theorem Good.entered (h : W.Good) (houter : outer < W.store.next)
    (hbindings : ∀ x ∈ bindings.map Prod.fst, x ∈ names) :
    (W.entered outer bindings names).Good := by
  refine ⟨fun hp => ?_, h.right, h.left, ?_⟩
  · show _ ∧ _ < (W.store.enterCall outer bindings).host.made
    rw [Store.host_enterCall]
    exact h.bounded hp
  · exact h.names.enterCall houter (fun env henv x => scope_entered_of_lt henv x)
      (fun x hx => (scope_entered x).2 (.inl hx))
      fun x hx => (scope_entered x).2 (.inr (hbindings x hx))

theorem le_entered : W.Le W.store.next (W.entered outer bindings names) := by
  have hget : ∀ {env} x, env < W.store.next →
      (W.store.enterCall outer bindings).get? env x = W.store.get? env x :=
    fun x henv => Store.get?_enterCall_of_lt bindings henv
  have hnext : W.store.next ≤ (W.store.enterCall outer bindings).next := by
    rw [Store.next_enterCall]
    exact Nat.le_succ _
  exact
    { next := hnext
      pairs := id
      scope := fun henv => scope_entered_of_lt henv _
      get? := fun hw => (hget _ (Store.lt_next_of_get? hw)).trans hw
      made := Nat.le_refl _
      host := Nat.le_of_eq (congrArg Host.made (Store.host_enterCall W.store outer bindings)).symm
      newer := .inl
      same := hget
      globals := fun _ => rfl }

/-- Names that can be bound inside of a function can be bound inside of its environment. -/
theorem Owns.entered (h : W.Owns outer (names ++ names')) :
    (W.entered outer bindings names).Owns W.store.next names' := by
  refine ⟨h.right.nodup, fun x hx hscope => ?_, h.right.unhidden⟩
  rcases (scope_entered x).1 hscope with hscope | hmem
  · exact h.right.unscoped x hx hscope
  · exact (List.nodup_append.1 h.nodup).2.2 x hmem x hx rfl

end World

/-! ## Tables of functions -/

namespace SymbolTable

variable {name : Option String} {names parameters : List String} {table : SymbolTable} {x : String}
  {symbol : Symbol}

/-- Names that are defined in a function take its slots one behind the other. -/
theorem get?_foldl_define (henclosed : table.enclosed = true)
    (h : (names.foldl define table).get? x = some symbol) :
    table.get? x = some symbol ∨ symbol.place = .localSlot ∧
      ∃ i, symbol.index = table.definitions + i ∧ names[i]? = some x := by
  induction names generalizing table with
  | nil => exact .inl h
  | cons first rest ih =>
    have hnext : (table.define first).enclosed = true := henclosed
    rcases ih hnext h with hget | ⟨hplace, i, hindex, hi⟩
    · rw [get?_define] at hget
      split at hget
      · next heq =>
        cases hget
        refine .inr ⟨?_, 0, rfl, congrArg some heq⟩
        simp [nextSymbol, henclosed]
      · exact .inl hget
    · have hdefinitions : (table.define first).definitions = table.definitions + 1 := rfl
      refine .inr ⟨hplace, i + 1, ?_, hi⟩
      omega

/-- Before its body, a function knows itself and its parameters. -/
theorem get?_ofFunction (h : (ofFunction name parameters).get? x = some symbol) :
    name = some x ∧ symbol.place = .itself ∨
      symbol.place = .localSlot ∧ parameters[symbol.index]? = some x := by
  have hcases : ∀ table : SymbolTable, table.enclosed = true → table.definitions = 0 →
      (parameters.foldl define table).get? x = some symbol → table.get? x = some symbol ∨
        symbol.place = .localSlot ∧ parameters[symbol.index]? = some x := by
    intro table henclosed hdefinitions hget
    refine (get?_foldl_define henclosed hget).imp_right ?_
    rintro ⟨hplace, i, hindex, hi⟩
    rw [hdefinitions, Nat.zero_add] at hindex
    exact ⟨hplace, hindex ▸ hi⟩
  cases name with
  | none =>
    refine (hcases { enclosed := true } rfl rfl h).imp_left fun hget => ?_
    simp [get?] at hget
  | some name =>
    refine (hcases (defineItself { enclosed := true } name) rfl rfl h).imp_left fun hget => ?_
    rw [defineItself, get?_insert] at hget
    split at hget
    · next heq =>
      cases hget
      exact ⟨congrArg some heq, rfl⟩
    · simp [get?] at hget

end SymbolTable

/-! ## The body of a function -/

/-- What is known of a closure and of the function that it stands for. -/
structure Callee (final : Stage) (W : World) (s s' : Stage) (is : List Instruction)
    (literal : FunctionLiteral) (env : Nat) (stamp stamp' : Stamp) (free : List Value) :
    Prop where
  sound : s.Sound
  body : StmtsCode (s.enter literal.name literal.parameters) 0 literal.body is s'
  locals : s'.tables.inner.definitions ≤ 255
  captures : s'.tables.inner.captures.size ≤ 255
  within : s'.Within final
  regular : Program.isRegular true true literal.body = true
  inside : env < W.store.next
  owns : W.Owns env (literal.parameters ++ Program.binders literal.body)
  unhidden : ∀ x, W.scope env x → Builtin.ofName? x = none
  itself : ∀ name, literal.name = some name →
    W.store.get? env name = some (.function stamp' literal env)
  globals : ∀ {name symbol}, s.tables.outermost.get? name = some symbol →
    symbol.place = .globalSlot → ∃ w, W.store.get? env name = some w ∧ W.store.get? 0 name = some w
  captured : ∀ {i : Nat} {c}, s'.captures[i]? = some c →
    ∃ v w, free[i]? = some v ∧ W.store.get? env c.name = some w ∧ v.Related final W w
  related : (Value.closure stamp (s'.routine is literal.parameters.length) free).Related final W
    (.function stamp' literal env)

/-- A function of the evaluator stands for a closure. -/
theorem Value.Related.callee {r : Routine}
    (h : (Value.closure stamp r free).Related final W (.function stamp' literal env)) :
    ∃ s s' is, r = s'.routine is literal.parameters.length ∧
      Callee final W s s' is literal env stamp stamp' free := by
  have hrelated := h
  cases h with
  | closure hpair hcompiled henv howns hunhidden hself hglobals hseen hlength hall =>
    cases hcompiled with
    | @intro s s' _ is hs hbody hlocals hcaptures hwithin hregular =>
      refine ⟨s, s', is, rfl,
        { sound := hs
          body := hbody
          locals := hlocals
          captures := hcaptures
          within := hwithin
          regular := hregular
          inside := henv
          owns := howns
          unhidden := hunhidden
          itself := hself
          globals := fun hget => hglobals _ _ hget
          captured := fun {i c} hc => ?_
          related := hrelated }⟩
      have hseen' := congrArg (·[i]?) hseen
      simp only [List.getElem?_map, hc, Option.map_some] at hseen'
      obtain ⟨w, hw, hget⟩ := Option.map_eq_some_iff.1 hseen'.symm
      have hi := (List.getElem?_eq_some_iff.1 hw).1
      rw [← hlength] at hi
      have hv := List.getElem?_eq_getElem hi
      exact ⟨_, w, hv, hget.symm, hall i _ _ hv hw⟩

namespace Callee

variable {params : List (String × Value)}

/-- The names that can be bound in a call itself. -/
abbrev names (literal : FunctionLiteral) : List String :=
  literal.parameters ++ Program.lets literal.body

/-- The world of the body of a function that was called with arguments. -/
abbrev called (W : World) (literal : FunctionLiteral) (env : Nat) (ws : List Value) : World :=
  W.entered env (literal.parameters.zip ws) (names literal)

theorem owns_names (h : Callee final W s s' is literal env stamp stamp' free) :
    W.Owns env (names literal ++ Program.nested literal.body) := by
  refine h.owns.perm ?_
  rw [List.append_assoc]
  exact (Program.binders_perm literal.body).append_left _

theorem map_fst_zip (hcount : ws.length = literal.parameters.length) :
    (literal.parameters.zip ws).map Prod.fst = literal.parameters :=
  List.map_fst_zip (Nat.le_of_eq hcount.symm)

theorem good (h : Callee final W s s' is literal env stamp stamp' free) (hW : W.Good)
    (hcount : ws.length = literal.parameters.length) : (called W literal env ws).Good := by
  refine hW.entered h.inside fun x hx => ?_
  rw [map_fst_zip hcount] at hx
  exact List.mem_append_left _ hx

/-- A name that is bound around a function is none of its parameters. -/
theorem get?_called (h : Callee final W s s' is literal env stamp stamp' free) (hW : W.Good)
    (hcount : ws.length = literal.parameters.length) {x : String} {w : Value}
    (hw : W.store.get? env x = some w) :
    (called W literal env ws).store.get? W.store.next x = some w := by
  refine (Store.get?_enterCall_of_notMem h.inside ?_).trans hw
  rw [map_fst_zip hcount]
  exact fun hmem => h.owns.left.unscoped x hmem (hW.names.of_get? hw)

/-- A parameter stands for its argument. -/
theorem get?_parameter (h : Callee final W s s' is literal env stamp stamp' free)
    (hall : RelatedAll final W vs ws) (hcount : ws.length = literal.parameters.length) {i : Nat}
    {x : String} (hx : literal.parameters[i]? = some x) :
    ∃ v w, vs[i]? = some v ∧ (called W literal env ws).store.get? W.store.next x = some w ∧
      v.Related final W w := by
  obtain ⟨hlength, hrelated⟩ := forall₂_iff_getElem?.1 hall
  have hi : i < ws.length := hcount ▸ (List.getElem?_eq_some_iff.1 hx).1
  have hv := List.getElem?_eq_getElem (hlength ▸ hi : i < vs.length)
  have hw := List.getElem?_eq_getElem hi
  refine ⟨_, _, hv, Store.get?_enterCall_of_mem ?_ ?_, hrelated i _ _ hv hw⟩
  · rw [map_fst_zip hcount]
    exact h.owns.left.nodup
  · exact List.mem_of_getElem? (List.getElem?_zip_eq_some.2 ⟨hx, hw⟩)

/-- The names that the body binds are new. -/
theorem fresh (h : Callee final W s s' is literal env stamp stamp' free) (hW : W.Good)
    (hcount : ws.length = literal.parameters.length) :
    Fresh (called W literal env ws) (s.enter literal.name literal.parameters) W.store.next
      literal.body := by
  have hnames := h.owns_names.left
  refine ⟨fun x hx => ⟨(World.scope_entered x).2 (.inr (List.mem_append_right _ hx)), ?_⟩,
    hnames.right.nodup, h.owns_names.entered, nofun⟩
  refine (Store.get?_enterCall_of_notMem h.inside ?_).trans ?_
  · rw [map_fst_zip hcount]
    exact fun hmem => (List.nodup_append.1 hnames.nodup).2.2 x hmem x hx rfl
  · cases hget : W.store.get? env x with
    | none => rfl
    | some w => exact absurd (hW.names.of_get? hget) (hnames.right.unscoped x hx)

theorem outermost_enter (s : Stage) (name : Option String) (parameters : List String) :
    (s.enter name parameters).tables.outermost = s.tables.outermost := Chain.outermost_enter ..

/-- The new frame holds what the new environment shows. -/
theorem runs (h : Callee final W s s' is literal env stamp stamp' free) (hlinked : Linked final W m)
    (hall : RelatedAll final W vs ws) (hcount : ws.length = literal.parameters.length)
    (hroom : maxFrames ≤ m₁.depth + k)
    (hslots : ys ++ vs <+: m₁.slots) (hframe : m₁.frame =
      ⟨stamp, s'.routine is literal.parameters.length, free, 0, ys.length⟩) :
    Runs final k (called W literal env ws) (s.enter literal.name literal.parameters) s'.captures
      W.store.next m₁ := by
  have hext : W.Ext (called W literal env ws) := World.le_entered.toExt
  have hgood := hlinked.good
  refine
    { sound := h.sound.enter _ _
      level := ⟨nofun, fun hnext => absurd hlinked.root (hnext ▸ Nat.lt_irrefl 0)⟩
      inside := ?inside
      unhidden := ?unhidden
      room := hroom
      names := ?names
      locals := ?locals
      itself := ?itself
      captured := ?captured
      globals := ?globals }
  case inside =>
    show W.store.next < (W.store.enterCall env _).next
    rw [Store.next_enterCall]
    exact Nat.lt_succ_self _
  case unhidden =>
    intro x hx
    rcases (World.scope_entered x).1 hx with hscope | hmem
    · exact h.unhidden x hscope
    · exact h.owns_names.left.unhidden x hmem
  case names =>
    intro x symbol hget
    refine h.within.names ?_
    rw [(h.body.widens h.regular).outermost (.inr (List.cons_ne_nil _ _))]
    exact hget
  case locals =>
    intro x symbol hget hplace
    rcases SymbolTable.get?_ofFunction hget with ⟨-, hplace'⟩ | ⟨-, hx⟩
    · rw [hplace] at hplace'
      cases hplace'
    · obtain ⟨v, w, hv, hw, hrelated⟩ := h.get?_parameter hall hcount hx
      refine ⟨v, w, ?_, hw, hrelated.mono hext⟩
      have hslot : (ys ++ vs)[ys.length + symbol.index]? = some v := by
        rw [List.getElem?_append_right (Nat.le_add_right _ _), Nat.add_sub_cancel_left]
        exact hv
      obtain ⟨more, hmore⟩ := hslots
      rw [hframe, ← hmore, List.getElem?_append_left (List.getElem?_eq_some_iff.1 hslot).1]
      exact hslot
  case itself =>
    intro x symbol hget hplace
    rcases SymbolTable.get?_ofFunction hget with ⟨hname, -⟩ | ⟨hplace', -⟩
    · refine ⟨_, h.get?_called hgood hcount (h.itself x hname), ?_⟩
      rw [hframe]
      exact h.related.mono hext
    · rw [hplace] at hplace'
      cases hplace'
  case captured =>
    intro i c hc
    obtain ⟨v, w, hv, hw, hrelated⟩ := h.captured hc
    refine ⟨v, w, ?_, h.get?_called hgood hcount hw, hrelated.mono hext⟩
    rw [hframe]
    exact hv
  case globals =>
    intro x symbol hget hplace
    rw [outermost_enter] at hget
    obtain ⟨w, hw, hw₀⟩ := h.globals hget hplace
    exact ⟨w, h.get?_called hgood hcount hw, hext.get? hw₀⟩

theorem reaches (h : Callee final W s s' is literal env stamp stamp' free) :
    (s.enter literal.name literal.parameters).Reaches is s' :=
  h.body.reaches (h.sound.enter literal.name literal.parameters)

/-- There are slots for the parameters. -/
theorem parameters_le (h : Callee final W s s' is literal env stamp stamp' free) :
    (s'.routine is literal.parameters.length).parameters ≤
      (s'.routine is literal.parameters.length).locals := by
  have hgrows := h.reaches.grows.tables.innermost.definitions
  obtain ⟨-, -, hdefinitions, -⟩ :=
    SymbolTable.ofFunction_sound literal.name literal.parameters
  exact hdefinitions ▸ hgrows

/-- The code of the routine stands in its bytes. -/
theorem shows (h : Callee final W s s' is literal env stamp stamp' free) :
    (s'.routine is literal.parameters.length).code.Shows 0 (bodyCode is) := by
  have hreaches := h.reaches
  obtain ⟨-, henclosed, -, -⟩ :=
    SymbolTable.ofFunction_sound literal.name literal.parameters
  have henclosed' : s'.tables.inner.enclosed = true :=
    hreaches.grows.tables.innermost.enclosed.trans henclosed
  have hsmall : s'.bounds.Small :=
    ⟨hreaches.sound.pool, hreaches.sound.slots, Stage.bounds_locals henclosed' ▸ h.locals,
      h.captures⟩
  refine (decodesTo_assemble fun i hi => ?_).shows
  rcases Stage.mem_of_mem_bodyCode hi with hi | rfl | rfl
  · exact (hreaches.valid i hi).fits hsmall
  · nofun
  · nofun

/-- The site at which the body of a function starts. -/
theorem site (h : Callee final W s s' is literal env stamp stamp' free) (hlinked : Linked final W m)
    (hlinked' : Linked final (called W literal env ws) m₁)
    (hall : RelatedAll final W vs ws) (hcount : ws.length = literal.parameters.length)
    (hroom : maxFrames ≤ m₁.depth + k)
    (hslots : ys ++ vs <+: m₁.slots) (hframe : m₁.frame =
      ⟨stamp, s'.routine is literal.parameters.length, free, 0, ys.length⟩) :
    Site final k (called W literal env ws) (s.enter literal.name literal.parameters) s'
      s'.captures W.store.next m₁ 0 (valueCode is) where
  runs := h.runs hlinked hall hcount hroom hslots hframe
  linked := hlinked'
  code := by
    rw [hframe]
    exact h.shows.of_bodyCode
  ip := by rw [hframe]
  below := ⟨h.within.constants, List.prefix_refl _⟩

end Callee

/-! ## The way back -/

/-- The machine runs a call that comes back to the position `ip` of the call that `m` runs, and puts
its value on top of `xs` there. -/
structure Machine.Inside (m : Machine) (ip : Nat) (xs : List Value) (m₁ : Machine) : Prop where
  slots : xs <+: m₁.slots
  base : m₁.frame.base = xs.length + 1
  callers : m₁.callers = m.callers.push { m.frame with ip := ip }

namespace Machine.Inside

/-- The body of a function leaves alone what is below its frame. -/
theorem kept (h : m.Inside ip xs m₁) (hkept : Kept true m₁ ys) : xs <+: ys := by
  have hle : xs.length ≤ m₁.frame.base := h.base ▸ Nat.le_succ _
  have htake := congrArg (List.take xs.length) hkept.below
  rw [List.take_take, List.take_take, Nat.min_eq_left hle, ← List.prefix_iff_eq_take.1 h.slots]
    at htake
  exact htake ▸ List.take_prefix _ _

variable {zs : List Value} {p : Nat}

/-- Coming back with a value. -/
theorem returnWith (h : m.Inside ip xs m₁) (hstands : m₁.Stands p zs m')
    (hlinked : Linked final W' m') (hle : W.Le W.store.next W')
    (hrelated : v.Related final W' w) (hys : xs <+: ys) (hheld : Holding (behind m' i) ys m₂) :
    Ensures (Exec.returnWith v) m₂
      (fun _ m₃ => Next m' m₃ →
        Outcome k (fun _ => pure w) W' m₃ (Gives final W m xs ip))
      (Fails (fun _ => pure w) W') := by
  obtain ⟨more, rfl⟩ := hys
  have hcallers : m₂.callers = m.callers.push { m.frame with ip := ip } :=
    hheld.callers.trans (hstands.callers.trans h.callers)
  have hbase : m₂.frame.base = xs.length + 1 := by
    rw [hheld.frame]
    show m'.frame.base = _
    rw [hstands.frame]
    exact h.base
  refine hheld.returnWith (by rw [hcallers, Array.back?_push]) hbase fails_stackOverflow ?_
  intro m₃ hm₃ hnext
  have hlinked₃ := hlinked.next hnext (hm₃.globals.trans hheld.globals)
    (Nat.le_trans hheld.made (Nat.le_of_eq (by rw [hm₃.host])))
  have hstands₃ : m.Stands ip (xs ++ [v]) m₃ := by
    refine ⟨hm₃.slots, hm₃.frame, ?_⟩
    rw [hm₃.callers, hcallers, Array.pop_push]
  exact .done W' (Eval.settles_of_eq fun _ => rfl) ⟨hlinked₃, hle, v, hrelated, hstands₃⟩

theorem outcome_returnValue (h : m.Inside ip xs m₁) (hstands : m₁.Stands p (ys ++ [v]) m')
    (hlinked : Linked final W' m') (hle : W.Le W.store.next W') (hrelated : v.Related final W' w)
    (hkept : Kept true m₁ ys) (hfetch : m₁.frame.routine.code.fetch p = .instruction .returnValue) :
    Outcome k (fun _ => pure w) W' m' (Gives final W m xs ip) := by
  rw [← hstands.routine_eq, ← hstands.ip_eq] at hfetch
  refine .fetched hfetch (ensures_bind ((hlinked.holding hstands.slots .returnValue).pop ?_))
  intro m₂ h₂ _ _
  exact h.returnWith hstands hlinked hle hrelated (h.kept hkept) h₂

theorem outcome_returnNull (h : m.Inside ip xs m₁) (hstands : m₁.Stands p ys m')
    (hlinked : Linked final W' m') (hle : W.Le W.store.next W') (hkept : Kept true m₁ ys)
    (hfetch : m₁.frame.routine.code.fetch p = .instruction .returnNull) :
    Outcome k (fun _ => pure .null) W' m' (Gives final W m xs ip) := by
  rw [← hstands.routine_eq, ← hstands.ip_eq] at hfetch
  exact .fetched hfetch (h.returnWith hstands hlinked hle .null (h.kept hkept)
    (hlinked.holding hstands.slots .returnNull))

end Machine.Inside

theorem Value.Related.unmark (h : v.Related final W w) : Eval.unmark w = w := by
  cases h <;> rfl

/-- The end of a function body. -/
theorem Ends.comeBack (h : Ends final W.store.next true true W₁ m₁ (0 + extent (valueCode is))
      is.getLast? w W' m') (hle : W.Le W.store.next W₁) (hinside : m.Inside ip xs m₁)
    (hcode : m₁.frame.routine.code.Shows 0 (bodyCode is)) :
    Outcome k (fun _ => pure (Eval.unmark w)) W' m' (Gives final W m xs ip) := by
  cases h with
  | value hlast hlinked hle' hrelated hkept hstands =>
    rw [bodyCode_of_pop hlast] at hcode
    rw [hrelated.unmark]
    exact hinside.outcome_returnValue hstands hlinked (hle.trans hle' (Nat.le_refl _)) hrelated
      hkept (shows_append.1 hcode).2.1
  | nothing hlast hlast' hlinked hle' hkept hstands =>
    rw [bodyCode_of_ne hlast hlast'] at hcode
    exact hinside.outcome_returnNull hstands hlinked (hle.trans hle' (Nat.le_refl _)) hkept
      (shows_append.1 hcode).2.1
  | returns hmay h =>
    obtain ⟨v, w', ys, p, rfl, hrelated, hkept, hstands, hfetch⟩ := h.value
    exact hinside.outcome_returnValue hstands h.linked (hle.trans h.le (Nat.le_refl _)) hrelated
      hkept hfetch

/-! ## Calls -/

/-- An evaluation that goes on one level deeper. -/
theorem Outcome.deeper {α : Type} {x y : Nat → Eval α} {post : α → World → Machine → Prop}
    (h : Outcome k x W₁ m post) (hzero : ∀ a σ, y 0 W.store ≠ .ok a σ)
    (hsucc : ∀ d, y (d + 1) W.store = x d W₁.store) : Outcome (k + 1) y W m post := by
  rcases h with ⟨a, W', m', hsteps, hsettles, hpost⟩ | ⟨m₁, e, m₂, hsteps, hfail, hwhy⟩
  · refine .inl ⟨a, W', m', hsteps, fun d => ?_, hpost⟩
    cases d with
    | zero => exact .inr ⟨Nat.zero_le _, hzero⟩
    | succ d =>
      rw [hsucc]
      exact (hsettles d).imp_right fun h => ⟨Nat.succ_le_succ h.1, h.2⟩
  · refine .inr ⟨m₁, e, m₂, hsteps, hfail, hwhy.imp_right fun hnever d => ?_⟩
    cases d with
    | zero => exact hzero
    | succ d =>
      rw [hsucc]
      exact hnever d

/-- What the machine does with the value that is called. -/
def Machine.Exec.callValue (count : Nat) : Value → Exec Unit
  | .closure stamp r free => callClosure stamp r free count
  | .builtin b => callBuiltin b count
  | other => fail (.notAFunction other.kind)

/-- The instruction of a call finds the function below the arguments. -/
theorem Machine.Holding.call {ok : Unit → Machine → Prop} {bad : Halt → Machine → Prop}
    (h : Holding m (xs ++ v :: vs) m₁)
    (hcallee : Ensures (Exec.callValue vs.length v) m₁ ok bad) :
    Ensures (Exec.call vs.length) m₁ ok bad := by
  have hsp := h.sp_eq
  rw [List.length_append, List.length_cons] at hsp
  refine ensures_bind (ensures_get ?_)
  rw [if_neg (by omega)]
  refine ensures_bind (ensures_inBounds ⟨v, ?_, ?_⟩)
  · refine getElem?_stack_of_slots ?_
    rw [h.slots, show m₁.sp - (vs.length + 1) = xs.length by omega]
    simp
  · cases v <;> exact hcallee

theorem Machine.Holding.callBuiltin {ok : Unit → Machine → Prop} {bad : Halt → Machine → Prop}
    {function : Builtin} (h : Holding m (xs ++ v :: vs) m₁)
    (hfull : ∀ m₂, bad (.error .stackOverflow) m₂)
    (hok : ∀ m₂, Holding m (xs ++ [(function.call vs m₁.host).1]) m₂ →
      m₂.host = (function.call vs m₁.host).2 → ok () m₂) :
    Ensures (Exec.callBuiltin function vs.length) m₁ ok bad := by
  have hvs : xs ++ v :: vs = (xs ++ [v]) ++ vs := by simp
  have hanswered : Holding m (xs ++ v :: vs)
      { m₁ with host := (function.call vs m₁.host).2 } :=
    h.withHost (function.made_le_call vs m₁.host)
  refine ensures_bind (Holding.topmost (hvs ▸ h) rfl (ensures_bind ?_))
  refine ensures_bind (hanswered.drop (List.length_cons ..) fun m₂ h₂ hhost => ?_)
  exact h₂.push hfull fun m₃ h₃ hhost₃ _ => hok m₃ h₃ (hhost₃.trans hhost)

/-- A call of a builtin function. -/
theorem outcome_callBuiltin {function : Builtin} (hlinked : Linked final W m)
    (hfetch : m.frame.routine.code.fetch m.frame.ip = .instruction (.call vs.length))
    (hslots : m.slots = xs ++ .builtin function :: vs) (hall : RelatedAll final W vs ws) :
    Outcome k (fun d => Eval.apply d (.builtin function) ws) W m
      (Gives final W m xs (m.frame.ip + 2)) := by
  obtain ⟨W', hle, hgood, hstore, hmade, hrelated⟩ :=
    function.related_call hlinked.good hlinked.made hall
  have hheld := hlinked.holding hslots (.call vs.length)
  refine .fetched hfetch (hheld.call (hheld.callBuiltin fails_stackOverflow ?_))
  intro m' hm' hhost hnext
  refine .done W' (fun d => ?_)
    (hlinked.gives hnext hm' hrelated (hle _) hgood (hhost ▸ hmade))
  cases d with
  | zero => exact .inr ⟨Nat.zero_le _, nofun⟩
  | succ d =>
    rw [hstore]
    exact .inl rfl

/-- A call that fails however deep calls may be nested. -/
theorem never_apply {e : EvalError} {σ : Store}
    (h : ∀ d, Eval.apply (d + 1) w ws σ = .error (.error e) σ) :
    Eval.Never (fun d => Eval.apply d w ws) σ := by
  intro d a τ hok
  cases d with
  | zero => cases hok
  | succ d => cases (h d).symm.trans hok

/-- A call of something that is no function. -/
theorem outcome_notAFunction {e : Machine.Error} (hlinked : Linked final W m)
    (hfetch : m.frame.routine.code.fetch m.frame.ip = .instruction (.call vs.length))
    (hslots : m.slots = xs ++ v :: vs) (hv : Exec.callValue vs.length v = Exec.fail e)
    (hw : ∀ d, Eval.apply (d + 1) w ws = Eval.fail (.notAFunction w.kind)) :
    Outcome k (fun d => Eval.apply d w ws) W m (Gives final W m xs (m.frame.ip + 2)) := by
  refine .fetched hfetch ((hlinked.holding hslots _).call ?_)
  rw [hv]
  exact ensures_fail (fails_of_never (never_apply fun d => by rw [hw]; rfl) _)

namespace Callee

theorem never_of_count (hcount : ws.length ≠ literal.parameters.length) :
    Eval.Never (fun d => Eval.apply d (.function stamp' literal env) ws) W.store :=
  never_apply fun _ => congrFun (if_neg (Ne.symm hcount)) W.store

theorem apply_succ (hcount : ws.length = literal.parameters.length) (d : Nat) :
    Eval.apply (d + 1) (.function stamp' literal env) ws W.store =
      (Eval.block (Eval.apply d) W.store.next .null literal.body >>= fun result =>
        pure (Eval.unmark result)) (called W literal env ws).store :=
  Eval.apply_function hcount.symm d W.store

/-- A call of a closure, if the calls nested in it agree. -/
theorem outcome (hcalls : ∀ j < k, CallsAgree final j)
    (h : Callee final W s s' is literal env stamp stamp' free) (hlinked : Linked final W m)
    (hroom : maxFrames ≤ m.depth + k)
    (hfetch : m.frame.routine.code.fetch m.frame.ip = .instruction (.call vs.length))
    (hslots : m.slots =
      xs ++ .closure stamp (s'.routine is literal.parameters.length) free :: vs)
    (hall : RelatedAll final W vs ws) :
    Outcome k (fun d => Eval.apply d (.function stamp' literal env) ws) W m
      (Gives final W m xs (m.frame.ip + 2)) := by
  have hlength := hall.length_eq
  refine .fetched hfetch ((hlinked.holding hslots _).call ?_)
  have hslots' : m.slots =
      (xs ++ [.closure stamp (s'.routine is literal.parameters.length) free]) ++
      vs := by
    rw [hslots]
    simp
  refine (hlinked.holding hslots' _).callClosure h.parameters_le fails_stackOverflow
    fails_frameOverflow (fun hne => fails_of_never (never_of_count (hlength ▸ hne))) ?_
  intro m₁ hcount hdepth hm₁ hnext
  have hcount : ws.length = literal.parameters.length := hlength ▸ hcount
  have hdepth : m.depth < maxFrames := hdepth
  obtain ⟨k, rfl⟩ : ∃ j, k = j + 1 := ⟨k - 1, by omega⟩
  have hroom : maxFrames ≤ m₁.depth + k := by
    have hpush : m₁.depth = m.depth + 1 := by
      unfold Machine.depth
      rw [hm₁.callers, Array.size_push]
      rfl
    omega
  have hlinked₁ : Linked final (called W literal env ws) m₁ :=
    (hlinked.next hnext hm₁.globals (Nat.le_of_eq (by rw [hm₁.host]; rfl))).grow World.le_entered
      hlinked.root (h.good hlinked.good hcount) (hm₁.host ▸ hlinked.made)
  have hsite := h.site hlinked hlinked₁ hall hcount hroom (hm₁.slots ▸ List.prefix_append _ _)
    hm₁.frame
  have hinside : m.Inside (m.frame.ip + 2) xs m₁ := by
    refine ⟨?_, ?_, hm₁.callers⟩
    · rw [hm₁.slots, List.append_assoc, List.append_assoc]
      exact List.prefix_append _ _
    · rw [hm₁.frame]
      exact List.length_append
  have hbody := h.body.outcome (hcalls k (Nat.lt_succ_self k)) h.regular hsite
    (h.fresh hlinked.good hcount) World.le_entered.next (fun _ => Nat.le_refl _) h.within.names
  have hwhole := hbody.bind (f := fun _ result => pure (Eval.unmark result)) fun w W' m' hends => by
    refine hends.comeBack World.le_entered hinside ?_
    rw [hm₁.frame]
    exact h.shows
  exact hwhole.deeper nofun (apply_succ hcount)

end Callee

/-- Calls come to related values, however many can be nested in them. -/
theorem callsAgree (final : Stage) (k : Nat) : CallsAgree final k := by
  induction k using Nat.strongRecOn with
  | ind k ih =>
    intro W m xs v w vs ws hlinked hroom hfetch hslots hrelated hall
    have hcallee := hrelated
    cases hrelated with
    | builtin function => exact outcome_callBuiltin hlinked hfetch hslots hall
    | closure =>
      obtain ⟨s, s', is, rfl, h⟩ := hcallee.callee
      exact h.outcome ih hlinked hroom hfetch hslots hall
    | _ => exact outcome_notAFunction hlinked hfetch hslots rfl fun _ => rfl

end Scriptlet
