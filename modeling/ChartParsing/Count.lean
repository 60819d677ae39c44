/-!
# Counts of 64 bits

Counts are natural numbers up to `maxCount`. A sum of sizes stops at the limit; a number of ways
that passes it is unknown.

## Main definitions

* `saturatingAdd`: addition that stops at the limit.
* `checkedAdd?`, `checkedMul?`: addition and multiplication, `none` beyond the limit.
-/

namespace ChartParsing

/-- The largest count: `2 ^ 64 - 1`. -/
def maxCount : Nat := 18446744073709551615

/-- The sum, or the largest count if the sum is larger. -/
def saturatingAdd (a b : Nat) : Nat :=
  min (a + b) maxCount

/-- The number itself, if it is no larger than the largest count. -/
def checked? (n : Nat) : Option Nat :=
  if n ≤ maxCount then some n else none

/-- The sum of two known counts, if it is a count. -/
def checkedAdd? (a b : Option Nat) : Option Nat :=
  a.bind fun a => b.bind fun b => checked? (a + b)

/-- The product of two known counts, if it is a count. -/
def checkedMul? (a b : Option Nat) : Option Nat :=
  a.bind fun a => b.bind fun b => checked? (a * b)

end ChartParsing
