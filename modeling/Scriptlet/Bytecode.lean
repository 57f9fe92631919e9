import Scriptlet.Value

/-!
# Bytecode

Compiled code with the pool of constants that it refers to by position.
-/

namespace Scriptlet

/-- Code, and the constants it refers to. -/
structure Bytecode where
  code : Code := #[]
  constants : Array Value := #[]

end Scriptlet
