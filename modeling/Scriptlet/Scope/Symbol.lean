import Scriptlet.Builtin
import Std.Data.TreeMap

/-!
# Symbols and the tables that hold them

A symbol says where the value of a name is kept.  A table holds the symbols of one function body, or
of the program; tables do not know the tables around them.

A name is defined in a table by taking the next slot of that table; defining it again takes another
slot and hides the first.  Builtin names and the name of the function itself take no slot.
-/

namespace Scriptlet

/-- Where the value of a name is kept. -/
inductive Place where
  /-- In a slot of the program. -/
  | globalSlot
  /-- In a slot of the running function. -/
  | localSlot
  /-- In the list of builtin functions. -/
  | builtin
  /-- Among the values that a closure has captured. -/
  | captured
  /-- It is the running function. -/
  | itself
  deriving DecidableEq, Inhabited

/-- A name and the place of its value. -/
structure Symbol where
  name : String
  place : Place
  index : Nat
  deriving DecidableEq, Inhabited

/-- Whether the value of a symbol can be reached from every function, so that no closure has to
capture it. -/
def Symbol.isShared (symbol : Symbol) : Bool :=
  match symbol.place with
  | .globalSlot | .builtin => true
  | .localSlot | .captured | .itself => false

/-- The names of one function body or of the program. -/
structure SymbolTable where
  /-- The symbol that each name stands for. -/
  symbols : Std.TreeMap String Symbol := ∅
  /-- How many slots have been taken. -/
  definitions : Nat := 0
  /-- The symbols of the enclosing table that are captured, in the order of their capture. -/
  captures : Array Symbol := #[]
  /-- Whether the table belongs to a function rather than to the program. -/
  enclosed : Bool := false
  deriving Inhabited

namespace SymbolTable

/-- The symbol that a name stands for in this table alone. -/
def get? (table : SymbolTable) (name : String) : Option Symbol := table.symbols[name]?

/-- Lets a name stand for a symbol. -/
def insert (table : SymbolTable) (symbol : Symbol) : SymbolTable :=
  { table with symbols := table.symbols.insert symbol.name symbol }

/-- The symbol that the next definition of a name makes. -/
def nextSymbol (table : SymbolTable) (name : String) : Symbol :=
  ⟨name, if table.enclosed then .localSlot else .globalSlot, table.definitions⟩

/-- Defines a name in the next slot. -/
def define (table : SymbolTable) (name : String) : SymbolTable :=
  let symbol := table.nextSymbol name
  { table.insert symbol with definitions := table.definitions + 1 }

/-- Lets a name stand for the builtin function at a position. -/
def defineBuiltin (table : SymbolTable) (index : Nat) (name : String) : SymbolTable :=
  table.insert ⟨name, .builtin, index⟩

/-- Lets a name stand for the function that the table belongs to. -/
def defineItself (table : SymbolTable) (name : String) : SymbolTable :=
  table.insert ⟨name, .itself, 0⟩

/-- The symbol that capturing a symbol of the enclosing table makes. -/
def capturedSymbol (table : SymbolTable) (symbol : Symbol) : Symbol :=
  ⟨symbol.name, .captured, table.captures.size⟩

/-- Captures a symbol of the enclosing table. -/
def capture (table : SymbolTable) (symbol : Symbol) : SymbolTable :=
  { table.insert (table.capturedSymbol symbol) with captures := table.captures.push symbol }

/-- A table of the program in which the builtin functions have their names. -/
def withBuiltins : SymbolTable :=
  Builtin.all.zipIdx.foldl (fun table b => table.defineBuiltin b.2 b.1.name) {}

end SymbolTable

end Scriptlet
