import Scriptlet.Codegen.Compile
import Scriptlet.Machine.Step
import Scriptlet.Tree.Source

/-!
# Sessions

A session runs one program after the other on the machine and carries over what they leave behind:
the global names, the constants that compiled functions refer to, and the values of the global
slots.  A program that is refused leaves nothing behind; one that fails while it runs leaves the
names it defined and the slots it wrote before it failed.
-/

namespace Scriptlet

/-- What programs leave behind for later ones. -/
structure Session where
  table : SymbolTable
  constants : Array Value
  globals : Array Value
  host : Host

namespace Session

/-- A session before its first program. -/
def start : Session where
  table := .withBuiltins
  constants := #[]
  globals := Machine.emptyGlobals
  host := {}

/-- The symbol that a name stands for in the programs of a session. -/
def symbol? (session : Session) (name : String) : Option Symbol := session.table.get? name

/-- Compiles a program for a session.  The result has the bytecode of this program alone, and the
session with its names and constants. -/
def compile (session : Session) (program : Program) : Except CompileError Bytecode × Session :=
  let { table, constants, globals, host } := session
  let (result, c) := (Compiler.resume table constants).compile program
  let bytecode := c.bytecode
  (result.map fun _ => bytecode, { table := c.globals, constants := c.constants, globals, host })

/-- Runs bytecode on the global slots of a session.  The machine is returned as the run left it. -/
def execute (session : Session) (bytecode : Bytecode) :
    Except Machine.Halt Unit × Machine × Session :=
  let { table, constants, globals, host } := session
  let (result, m) := (Machine.load bytecode globals host).run
  let after : Session := { table, constants, globals := m.globals, host := m.host }
  (result, m, after)

end Session

end Scriptlet
