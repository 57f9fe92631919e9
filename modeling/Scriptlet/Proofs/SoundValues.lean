import Scriptlet.Proofs.Operands
import Scriptlet.Machine.Step

/-!
# Sound values

The values that a machine running compiled code comes across.  `Value.Sound` excludes values that
belong to the evaluator and routines that nobody has closed over, and says of every closure, however
deep inside an array or a hash, that its routine is sound and that it has captured all that its
routine reads.

The operations on values, the builtin functions among them, make sound values out of sound ones.
-/

namespace Scriptlet

/-- A value that a machine running compiled code may hold. -/
inductive Value.Sound (constants : Array Value) (globals : Nat) : Value → Prop
  | integer (value : Int64) : Sound constants globals (.integer value)
  | boolean (value : Bool) : Sound constants globals (.boolean value)
  | null : Sound constants globals .null
  | string (stamp : Stamp) (contents : String) : Sound constants globals (.string stamp contents)
  | builtin (function : Builtin) : Sound constants globals (.builtin function)
  | failure (message : String) : Sound constants globals (.failure message)
  | array (stamp : Stamp) {elements : List Value}
      (helements : ∀ v ∈ elements, Sound constants globals v) :
      Sound constants globals (.array stamp elements)
  | hash (stamp : Stamp) {entries : List (Key × Value)}
      (hentries : ∀ e ∈ entries, Sound constants globals e.2) :
      Sound constants globals (.hash stamp entries)
  | closure (stamp : Stamp) {r : Routine} {free : List Value} (hr : r.Sound constants globals)
      (hreads : r.ReadsBelow free.length) (hfree : ∀ v ∈ free, Sound constants globals v) :
      Sound constants globals (.closure stamp r free)

namespace Value

variable {constants constants' : Array Value} {globals globals' : Nat}

/-- Values stay sound when constants and global slots are added. -/
theorem Sound.mono {v : Value} (h : v.Sound constants globals)
    (hconstants : constants.toList <+: constants'.toList) (hglobals : globals ≤ globals') :
    v.Sound constants' globals' := by
  induction h with
  | integer value => exact .integer value
  | boolean value => exact .boolean value
  | null => exact .null
  | string stamp contents => exact .string stamp contents
  | builtin function => exact .builtin function
  | failure message => exact .failure message
  | array stamp _ ih => exact .array stamp ih
  | hash stamp _ ih => exact .hash stamp ih
  | closure stamp hr hreads _ ih => exact .closure stamp (hr.mono hconstants hglobals) hreads ih

/-- A constant that is not a routine is sound as a value. -/
theorem SoundConstant.sound {v : Value} (h : v.SoundConstant constants globals)
    (hkind : v.kind ≠ .routine) : v.Sound constants globals := by
  cases v with
  | integer value => exact .integer value
  | string stamp contents => exact .string stamp contents
  | routine stamp r => exact absurd rfl hkind
  | _ => exact h.elim

/-! ## Hashes -/

theorem mem_addEntry {α : Type} {key : Key} {value : α} {entries : List (Key × α)} {e : Key × α}
    (h : e ∈ addEntry key value entries) : e = (key, value) ∨ e ∈ entries := by
  induction entries with
  | nil => exact .inl (List.mem_singleton.1 h)
  | cons first rest ih =>
    obtain ⟨k, v⟩ := first
    unfold addEntry at h
    split at h
    · exact .inr h
    · split at h
      · exact List.mem_cons.1 h
      · rcases List.mem_cons.1 h with rfl | h
        · exact .inr (List.mem_cons_self ..)
        · exact (ih h).imp id (List.mem_cons_of_mem _)

/-- The entries of a hash literal are among those that were written. -/
theorem mem_entriesOf {α : Type} {pairs : List (Key × α)} {e : Key × α}
    (h : e ∈ entriesOf pairs) : e ∈ pairs := by
  induction pairs with
  | nil => exact h
  | cons first rest ih =>
    rcases mem_addEntry h with rfl | h
    · exact List.mem_cons_self ..
    · exact List.mem_cons_of_mem _ (ih h)

theorem mem_of_entry? {α : Type} {key : Key} {entries : List (Key × α)} {value : α}
    (h : entry? key entries = some value) : ∃ e ∈ entries, e.2 = value := by
  obtain ⟨e, he, rfl⟩ := Option.map_eq_some_iff.1 h
  exact ⟨e, List.mem_of_find?_eq_some he, rfl⟩

end Value

namespace Machine

variable {constants : Array Value} {globals : Nat}

/-- Errors of code that was not compiled. -/
def Error.isMalformed : Error → Bool
  | unknownOpcode _ _ | truncatedInstruction _ | invalidConstant _ | invalidOperand _ _
  | stackUnderflow => true
  | _ => false

/-- Errors that an operation on values may come to: none of malformed code, and none of a call. -/
def Error.IsOperand (e : Error) : Prop := e.isMalformed = false ∧ ∀ kind, e ≠ .notAFunction kind

/-- What an operation on values may come to. -/
def SoundResult (constants : Array Value) (globals : Nat) : Except Error Value → Prop
  | .ok v => v.Sound constants globals
  | .error e => e.IsOperand

theorem sound_integerArithmetic (op : Op) (a b : Int64) :
    SoundResult constants globals (.integer <$> integerArithmetic op a b) := by
  unfold integerArithmetic
  split
  · exact .integer _
  · exact .integer _
  · exact .integer _
  · cases floorDiv? a b with
    | none => exact ⟨rfl, nofun⟩
    | some q => exact .integer q
  · exact ⟨rfl, nofun⟩

theorem sound_arithmetic (op : Op) (left right : Value) (stamp : Stamp) :
    SoundResult constants globals (arithmetic op left right stamp) := by
  unfold arithmetic
  split
  · exact sound_integerArithmetic op _ _
  · split
    · exact .string stamp _
    · exact ⟨rfl, nofun⟩
  · exact ⟨rfl, nofun⟩

theorem isOperand_of_comparison {op : Op} {left right : Value} {e : Error}
    (h : comparison op left right = .error e) : e.IsOperand := by
  unfold comparison at h
  split at h
  · split at h <;> cases h
  · cases h
    exact ⟨rfl, nofun⟩
  · split at h
    · cases h
    · cases h
    · cases h
      exact ⟨rfl, nofun⟩

theorem sound_negative (operand : Value) : SoundResult constants globals (negative operand) := by
  unfold negative
  split
  · exact .integer _
  · exact ⟨rfl, nofun⟩

theorem sound_select {collection key : Value} (h : collection.Sound constants globals) :
    SoundResult constants globals (select collection key) := by
  unfold select
  split
  · next stamp elements index =>
    cases h with
    | array _ helements =>
      show (if _ then _ else _ : Value).Sound constants globals
      split
      · exact .null
      · rw [List.getD_eq_getElem?_getD]
        cases hget : elements[index.toInt.toNat]? with
        | none => exact .null
        | some v => exact helements v (List.mem_of_getElem? hget)
  · next stamp entries =>
    cases h with
    | hash _ hentries =>
      split
      · next k hk =>
        show ((Value.entry? k entries).getD .null).Sound constants globals
        cases hentry : Value.entry? k entries with
        | none => exact .null
        | some v =>
          obtain ⟨e, he, rfl⟩ := Value.mem_of_entry? hentry
          exact hentries e he
      · exact ⟨rfl, nofun⟩
  · exact ⟨rfl, nofun⟩

/-- The pairs of a hash literal hold the values that were on the stack. -/
theorem sound_pairsOf {values : List Value} (h : ∀ v ∈ values, v.Sound constants globals) :
    (∀ pairs, pairsOf values = .ok pairs → ∀ p ∈ pairs, p.2.Sound constants globals) ∧
      ∀ e, pairsOf values = .error e → e.IsOperand := by
  fun_induction pairsOf values with
  | case1 key value rest k hkey ih =>
    obtain ⟨hpairs, herror⟩ := ih fun v hv => h v (by simp [hv])
    cases hrest : pairsOf rest with
    | ok pairs =>
      constructor
      · rintro _ ⟨⟩ p hp
        rcases List.mem_cons.1 hp with rfl | hp
        · exact h value (by simp)
        · exact hpairs pairs hrest p hp
      · rintro _ ⟨⟩
    | error e =>
      constructor
      · rintro _ ⟨⟩
      · rintro _ ⟨⟩
        exact herror e hrest
  | case2 key value rest hkey =>
    constructor
    · rintro _ ⟨⟩
    · rintro _ ⟨⟩
      exact ⟨rfl, nofun⟩
  | case3 values hvalues =>
    constructor
    · rintro _ ⟨⟩ p hp
      cases hp
    · rintro _ ⟨⟩

end Machine

/-- Builtin functions answer sound arguments with sound values. -/
theorem Builtin.sound_call {constants : Array Value} {globals : Nat} (function : Builtin)
    {arguments : List Value} (host : Host) (h : ∀ v ∈ arguments, v.Sound constants globals) :
    (function.call arguments host).1.Sound constants globals := by
  cases function with
  | len =>
    show (length arguments).Sound constants globals
    unfold length
    split
    · exact .integer _
    · exact .integer _
    · exact .failure _
    · exact .failure _
  | puts => exact .null
  | first =>
    show (firstElement arguments).Sound constants globals
    unfold firstElement
    split
    · next stamp elements =>
      cases h _ (List.mem_singleton_self _) with
      | array _ helements =>
        cases elements with
        | nil => exact .null
        | cons v rest => exact helements v (List.mem_cons_self ..)
    · exact .failure _
    · exact .failure _
  | last =>
    show (lastElement arguments).Sound constants globals
    unfold lastElement
    split
    · next stamp elements =>
      cases h _ (List.mem_singleton_self _) with
      | array _ helements =>
        rw [List.getLastD_eq_getLast?]
        cases hlast : elements.getLast? with
        | none => exact .null
        | some v => exact helements v (List.mem_of_getLast? hlast)
    · exact .failure _
    · exact .failure _
  | rest =>
    show (restElements host arguments).1.Sound constants globals
    unfold restElements
    split
    · exact .null
    · next stamp v elements =>
      cases h _ (List.mem_singleton_self _) with
      | array _ helements => exact .array _ fun w hw => helements w (List.mem_cons_of_mem v hw)
    · exact .failure _
    · exact .failure _
  | push =>
    show (pushElement host arguments).1.Sound constants globals
    unfold pushElement
    split
    · next stamp elements value =>
      cases h _ (List.mem_cons_self ..) with
      | array _ helements =>
        refine .array _ fun w hw => ?_
        rcases List.mem_append.1 hw with hw | hw
        · exact helements w hw
        · exact h w (List.mem_cons_of_mem _ hw)
    · exact .failure _
    · exact .failure _

end Scriptlet
