/-!
# Division toward the floor

The quotient of two 64-bit integers, rounded down.  The machine word's own division rounds toward
zero, so a quotient of operands with different signs that leaves a remainder is one too large.
-/

namespace Scriptlet

/-- The quotient rounded down, wrapping around; there is none by zero. -/
def floorDiv? (left right : Int64) : Option Int64 :=
  if right = 0 then none
  else
    let quotient := left / right
    if left % right ≠ 0 ∧ decide (left < 0) ≠ decide (right < 0) then some (quotient - 1)
    else some quotient

end Scriptlet
