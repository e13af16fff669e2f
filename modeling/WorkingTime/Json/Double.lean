/-
Doubles that are natural numbers.

A double keeps 53 bits of a number.  A natural number below the limit rounds
to a double that is a natural number too, so rounding needs no fractions; and
whether a product of doubles is beyond the doubles is seen on the exact
product, which is rounded once.
-/
namespace WorkingTime.Double

/-- The number of bits a double keeps. -/
def precision : Nat := 53

/-- The distance between the doubles around a number: its bits after the first
53 make a number below this one. -/
def spacing (n : Nat) : Nat :=
  1 <<< (n.log2 + 1 - precision)

/-- The double nearest to a number, without regard to the limit; of two that
are equally near, the one whose last bit is zero. -/
def nearest (n : Nat) : Nat :=
  let unit := spacing n
  let below := n / unit
  let rest := n % unit
  if 2 * rest < unit ∨ (2 * rest = unit ∧ below % 2 = 0) then below * unit
  else (below + 1) * unit

/-- The least number that rounds to no finite double: half a unit in the last
place above the largest one. -/
def limit : Nat := 1 <<< 1024 - 1 <<< 970

end WorkingTime.Double
