import Scriptlet.Builtin
import Scriptlet.Tree

/-!
# Where names occur

The text of a program is laid out as a list of marks, which say where a name is used, where a `let`
has come to its end and binds its name, and where a function literal begins and ends.  A conditional
leaves no mark, since its blocks are no scopes.

A name is bound at a place of the text (`Mark.isBound`) if, looking back from there and passing over
functions that have ended, one comes to a `let` of that name, or to the beginning of a function that
has it as its own name or as a parameter.

The marks are in the order of the text, or else in one in which the right operand of `<` stands
before the left one.
-/

namespace Scriptlet

/-- What a place of a program text says about names. -/
inductive Mark where
  | use (name : String)
  | bind (name : String)
  /-- A function begins, in which these names are bound. -/
  | enter (names : List String)
  /-- The function ends that has begun last. -/
  | leave
  deriving DecidableEq

namespace Mark

/-- Whether a name is bound at a place.  The marks before the place are given the nearest one first.
The number counts the functions that have ended between the place and these marks, and of which the
beginning is among the marks. -/
def isBound (name : String) : List Mark → Nat → Bool
  | [], _ => false
  | use _ :: before, n => isBound name before n
  | bind name' :: before, 0 => name' == name || isBound name before 0
  | bind _ :: before, n + 1 => isBound name before (n + 1)
  | enter names :: before, 0 => names.contains name || isBound name before 0
  | enter _ :: before, n + 1 => isBound name before n
  | leave :: before, n => isBound name before (n + 1)

/-- Whether a name may be used at a place, since it is bound there or belongs to a builtin
function. -/
def isKnown (name : String) (before : List Mark) (n : Nat) : Bool :=
  (Builtin.ofName? name).isSome || isBound name before n

/-- Behind the marks `before`, the marks `marks` use the name in a place where it is not known. -/
def Strays (before marks : List Mark) (name : String) : Prop :=
  ∃ earlier later, marks = earlier ++ use name :: later ∧
    isKnown name (earlier.reverse ++ before) 0 = false

variable {before marks more : List Mark} {mark : Mark} {name : String}

theorem not_strays_nil : ¬ Strays before [] name := by
  rintro ⟨earlier, later, h, -⟩
  cases earlier <;> cases h

theorem strays_cons : Strays before (mark :: marks) name ↔
    mark = use name ∧ isKnown name before 0 = false ∨ Strays (mark :: before) marks name := by
  constructor
  · rintro ⟨earlier, later, h, hknown⟩
    cases earlier with
    | nil =>
      cases h
      exact .inl ⟨rfl, hknown⟩
    | cons first earlier =>
      cases h
      refine .inr ⟨earlier, later, rfl, ?_⟩
      rw [List.reverse_cons, List.append_assoc] at hknown
      exact hknown
  · rintro (⟨rfl, hknown⟩ | ⟨earlier, later, rfl, hknown⟩)
    · exact ⟨[], marks, rfl, hknown⟩
    · refine ⟨mark :: earlier, later, rfl, ?_⟩
      rw [List.reverse_cons, List.append_assoc]
      exact hknown

theorem strays_append : Strays before (marks ++ more) name ↔
    Strays before marks name ∨ Strays (marks.reverse ++ before) more name := by
  induction marks generalizing before with
  | nil => simp [not_strays_nil]
  | cons mark marks ih => simp [strays_cons, ih, or_assoc]

instance (before marks : List Mark) (name : String) : Decidable (Strays before marks name) :=
  match marks with
  | [] => .isFalse not_strays_nil
  | mark :: marks =>
    have := instDecidableStrays (mark :: before) marks name
    decidable_of_iff _ strays_cons.symm

/-- Every name is used where it is known. -/
def WellScoped (marks : List Mark) : Prop := ∀ name, ¬ Strays [] marks name

end Mark

mutual

/-- The marks of an expression.  If `swapped` is set, the right operand of `<` stands before the
left one. -/
def Expr.marks (swapped : Bool) : Expr → List Mark
  | .identifier name => [.use name]
  | .integer _ | .boolean _ | .string _ => []
  | .array elements => Expr.marksOf swapped elements
  | .hash pairs => Expr.marksOfPairs swapped pairs
  | .unary _ operand => operand.marks swapped
  | .binary left operator right =>
    if swapped && operator == .lessThan then right.marks swapped ++ left.marks swapped
    else left.marks swapped ++ right.marks swapped
  | .conditional condition consequence alternative =>
    condition.marks swapped ++ (Program.marks swapped consequence ++
      match alternative with
      | some alternative => Program.marks swapped alternative
      | none => [])
  | .function name parameters body =>
    .enter (name.toList ++ parameters) :: (Program.marks swapped body ++ [.leave])
  | .call callee arguments => callee.marks swapped ++ Expr.marksOf swapped arguments
  | .index collection key => collection.marks swapped ++ key.marks swapped

/-- The marks of expressions, one behind the other. -/
def Expr.marksOf (swapped : Bool) : List Expr → List Mark
  | [] => []
  | e :: rest => e.marks swapped ++ Expr.marksOf swapped rest

/-- The marks of the entries of a hash literal. -/
def Expr.marksOfPairs (swapped : Bool) : List (Expr × Expr) → List Mark
  | [] => []
  | (key, value) :: rest =>
    key.marks swapped ++ (value.marks swapped ++ Expr.marksOfPairs swapped rest)

/-- The marks of a statement.  A `let` binds its name behind its value. -/
def Stmt.marks (swapped : Bool) : Stmt → List Mark
  | .bind name value => value.marks swapped ++ [.bind name]
  | .ret value => value.marks swapped
  | .eval value => value.marks swapped

/-- The marks of statements, one behind the other. -/
def Program.marks (swapped : Bool) : Program → List Mark
  | [] => []
  | first :: rest => first.marks swapped ++ Program.marks swapped rest

end

theorem Expr.marks_conditional (swapped : Bool) (condition : Expr) (consequence : Program)
    (alternative : Option Program) :
    (Expr.conditional condition consequence alternative).marks swapped =
      condition.marks swapped ++
        (Program.marks swapped consequence ++ Program.marks swapped (alternative.getD [])) := by
  cases alternative <;> simp [Expr.marks, Program.marks]

end Scriptlet
