/-!
# Double precision numbers

Enum members are numbered with the arithmetic of scripts, so a number may be a double. A finite
double is a sign and a count of the smallest positive double, 2^-1074; every operation computes
exactly on counts and then rounds once, to the nearest double and on a tie to the even one.
-/

namespace ScriptTree

/-- A **double**: a signed count of 2^-1074, an infinity, or not a number. -/
inductive Double where
  | finite (negative : Bool) (units : Nat)
  | infinite (negative : Bool)
  | nan
  deriving DecidableEq, Repr

namespace Double

/-- The number of units in one. -/
def one : Nat := Nat.pow 2 1074

/-- The first count that is too large for a finite double. -/
def limit : Nat := Nat.pow 2 2098

/-- The nearest whole number to a fraction; a tie goes to the even one. -/
def nearest (num den : Nat) : Nat :=
  let q := num / den
  let r := num % den
  if 2 * r < den then q else if den < 2 * r then q + 1 else q + q % 2

/-- The spacing of the doubles around a count of units: 53 binary digits are kept. -/
def grain (units : Nat) : Nat := Nat.pow 2 (units.log2 - 52)

/-- The double nearest to `num / den` units. -/
def roundUnits (negative : Bool) (num den : Nat) : Double :=
  let g := grain (num / den)
  let units := nearest num (den * g) * g
  if units < limit then .finite negative units else .infinite negative

/-- The double nearest to the fraction `num / den`. -/
def round (negative : Bool) (num den : Nat) : Double := roundUnits negative (num * one) den

def ofInt (n : Int) : Double := round (n < 0) n.natAbs 1

/-- The double nearest to `digits · 10^exponent`. Numbers far outside the range are settled without
computing the power. -/
def ofDecimal (negative : Bool) (digits : Nat) (exponent : Int) : Double :=
  let size : Int := (Nat.toDigits 10 digits).length
  if digits = 0 ∨ exponent + size < -400 then .finite negative 0
  else if 400 < exponent + size then .infinite negative
  else if 0 ≤ exponent then round negative (digits * Nat.pow 10 exponent.toNat) 1
  else round negative digits (Nat.pow 10 (-exponent).toNat)

/-- The signed count of units. -/
def signedUnits (negative : Bool) (units : Nat) : Int := if negative then -(units : Int) else units

def add : Double → Double → Double
  | .finite s m, .finite t n =>
    let sum := signedUnits s m + signedUnits t n
    if sum = 0 then .finite (s && t) 0 else roundUnits (sum < 0) sum.natAbs 1
  | .infinite s, .infinite t => if s = t then .infinite s else .nan
  | .infinite s, .finite _ _ => .infinite s
  | .finite _ _, .infinite t => .infinite t
  | .nan, _ => .nan
  | _, .nan => .nan

/-- A double times a positive whole number. -/
def scale (k : Nat) : Double → Double
  | .finite s m => roundUnits s (m * k) 1
  | other => other

/-- The integer that a double is, if it is one. -/
def toInt? : Double → Option Int
  | .finite s m => if m % one = 0 then some (signedUnits s (m / one)) else none
  | _ => none

/-- The integer part of a finite double. -/
def truncate? : Double → Option Int
  | .finite s m => some (signedUnits s (m / one))
  | _ => none

end Double

end ScriptTree
