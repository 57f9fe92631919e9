/-!
# Numbers in decimal

How integers are written in scripts, in results and in listings.
-/

namespace Scriptlet

/-- A 64-bit integer in decimal, with a minus sign if it is negative. -/
def integerText (n : Int64) : String :=
  match n.toInt with
  | .ofNat m => Nat.repr m
  | .negSucc m => "-" ++ Nat.repr (m + 1)

/-- A number in decimal, filled with zeros to at least `width` digits. -/
def zeroPadded (width n : Nat) : String :=
  let digits := Nat.repr n
  String.ofList (List.replicate (width - digits.length) '0') ++ digits

end Scriptlet
