import ScriptTree.Number.Double
import ScriptTree.Text.CodePoint

/-!
# Shortest decimals

A double is written with the fewest decimal digits that read back as the same double; of several
such decimals the nearest is taken. The search runs over grids of 1, 2, … 17 digits and looks at the
two grid points around the value, in exact arithmetic.
-/

namespace ScriptTree.Double

/-- Ends of the interval of reals that round to `units`, in half units. -/
def interval (units : Nat) : Nat × Nat :=
  let g := grain units
  let below := if units = Nat.pow 2 units.log2 ∧ 1 < g then g / 2 else g
  (2 * units - below, 2 * units + g)

/-- Whether the ends of the interval round to `units` as well. -/
def endsIncluded (units : Nat) : Bool := units / grain units % 2 == 0

/-- The number of half units in one. -/
def halfOne : Nat := Nat.pow 2 1075

/-- The least `k` with `units` half units below `10^k`, where the number is positive. -/
def pointPosition (half : Nat) : Int :=
  if halfOne ≤ half then ((Nat.toDigits 10 (half / halfOne)).length : Int)
  else
    -(((List.range 400).find? fun j => halfOne ≤ half * Nat.pow 10 (j + 1)).getD 400 : Int)

/-- The point `c · 10^e` as a fraction of half units: numerator and denominator. -/
def gridPoint (c : Nat) (e : Int) : Nat × Nat :=
  if 0 ≤ e then (c * Nat.pow 10 e.toNat * halfOne, 1)
  else (c * halfOne, Nat.pow 10 (-e).toNat)

/-- Whether the point `c · 10^e` rounds to `units`. -/
def readsBack (units c : Nat) (e : Int) : Bool :=
  let (num, den) := gridPoint c e
  let (lo, hi) := interval units
  if endsIncluded units then lo * den ≤ num && num ≤ hi * den
  else lo * den < num && num < hi * den

/-- The distance of the point `c · 10^e` from `units`, over the denominator of the point. -/
def distance (units c : Nat) (e : Int) : Nat :=
  let (num, den) := gridPoint c e
  let v := 2 * units * den
  if num ≤ v then v - num else num - v

/-- The grid point with `n` digits that reads back as `units`, if there is one: its digits and
exponent. -/
def onGrid? (units n : Nat) : Option (Nat × Int) :=
  let e := pointPosition (2 * units) - n
  let c :=
    if 0 ≤ e then 2 * units / (Nat.pow 10 e.toNat * halfOne)
    else 2 * units * Nat.pow 10 (-e).toNat / halfOne
  match readsBack units c e, readsBack units (c + 1) e with
  | true, true =>
    let d := distance units c e
    let d' := distance units (c + 1) e
    some (if d < d' ∨ (d = d' ∧ c % 2 = 0) then c else c + 1, e)
  | true, false => some (c, e)
  | false, true => some (c + 1, e)
  | false, false => none

/-- The **shortest decimal** that reads back as a positive count of units: its digits and the
position of the decimal point. -/
def shortest (units : Nat) : List Char × Int :=
  let (c, e) := ((List.range' 1 17).findSome? (onGrid? units)).getD (0, 0)
  let digits := Nat.toDigits 10 c
  let kept := (digits.reverse.dropWhile (· == '0')).reverse
  (kept, e + digits.length)

/-- The exponent of a decimal: a sign and at least two digits. -/
def exponentText (e : Int) : List Char :=
  let digits := Nat.toDigits 10 e.natAbs
  (if e < 0 then '-' else '+') :: List.replicate (2 - digits.length) '0' ++ digits

/-- Digits with a decimal point put at a position. -/
def layout (digits : List Char) (point : Int) : List Char :=
  if -4 < point ∧ point ≤ 16 then
    if point ≤ 0 then '0' :: '.' :: List.replicate (-point).toNat '0' ++ digits
    else if digits.length ≤ point.toNat then
      digits ++ List.replicate (point.toNat - digits.length) '0' ++ ['.', '0']
    else digits.take point.toNat ++ '.' :: digits.drop point.toNat
  else
    digits.take 1 ++ (if digits.length = 1 then [] else '.' :: digits.drop 1)
      ++ 'e' :: exponentText (point - 1)

def text : Double → Text
  | .finite s 0 => if s then "-0.0" else "0.0"
  | .finite s units =>
    let (digits, point) := shortest units
    Text.ofChars (if s then '-' :: layout digits point else layout digits point)
  | .infinite s => if s then "-inf" else "inf"
  | .nan => "nan"

end ScriptTree.Double
