import NamespaceMigration.Text.Basic

/-! Finite numbers with a mantissa of 53 bits: what a decimal is read as, and the shortest decimal that is
nearest to a number. All in exact arithmetic. -/
namespace NamespaceMigration

/-- The number `mantissa * 2 ^ exponent`, with its sign. -/
structure Binary64 where
  negative : Bool
  mantissa : Nat
  exponent : Int
deriving DecidableEq

namespace Binary64

def minExponent : Int := -1074

def maxExponent : Int := 971

def zero (negative : Bool) : Binary64 := ⟨negative, 0, minExponent⟩

/-- `num / den` in units of `2 ^ q`, as a ratio. -/
def scaled (num den : Nat) (q : Int) : Nat × Nat :=
  (num * Nat.pow 2 (-q).toNat, den * Nat.pow 2 q.toNat)

/-- The exponent that leaves at most 53 bits before the point. -/
def exponentFor (num den : Nat) : Int :=
  let q := max ((num.log2 : Int) - den.log2 - 53) minExponent
  let (n, d) := scaled num den q
  if Nat.pow 2 53 ≤ n / d then q + 1 else q

/-- The nearest number to `num / den`; of two, the even one. None is near to what is too large. -/
def ofRatio? (num den : Nat) : Option Binary64 :=
  if num = 0 then some (zero false)
  else
    let q := exponentFor num den
    let (n, d) := scaled num den q
    let m := n / d
    let r := n % d
    let m := if d < 2 * r ∨ (d = 2 * r ∧ m % 2 = 1) then m + 1 else m
    let (m, q) := if m = Nat.pow 2 53 then (Nat.pow 2 52, q + 1) else (m, q)
    if maxExponent < q then none else some ⟨false, m, q⟩

def powerOfTen? (n : Nat) : Option Binary64 := ofRatio? (Nat.pow 10 n) 1

def maxPower : Nat := 308

/-- The nearest number to a product. Signs are left out here and below. -/
def mul? (x y : Binary64) : Option Binary64 :=
  let exponent := x.exponent + y.exponent
  ofRatio? (x.mantissa * y.mantissa * Nat.pow 2 exponent.toNat) (Nat.pow 2 (-exponent).toNat)

/-- The nearest number to a quotient. -/
def div? (x y : Binary64) : Option Binary64 :=
  let exponent := x.exponent - y.exponent
  ofRatio? (x.mantissa * Nat.pow 2 exponent.toNat) (y.mantissa * Nat.pow 2 (-exponent).toNat)

def scaleUp? (x : Binary64) (power : Nat) : Option Binary64 :=
  if x.mantissa = 0 then some x
  else if maxPower < power then none
  else (powerOfTen? power).bind x.mul?

/-- Divides by a power of ten, in at most `fuel` steps, and not further than to zero. -/
def scaleDown? : (fuel : Nat) → (x : Binary64) → (power : Nat) → Option Binary64
  | 0, x, _ => some x
  | fuel + 1, x, power =>
    if power ≤ maxPower then (powerOfTen? power).bind x.div?
    else if x.mantissa = 0 then some x
    else do
      let y ← (powerOfTen? maxPower).bind x.div?
      scaleDown? fuel y (power - maxPower)

/-- What `digits * 10 ^ exponent` is read as. The digits are rounded, then what they are scaled to is
rounded again, so that this need not be the nearest number. -/
def ofDecimal? (negative : Bool) (digits : Nat) (exponent : Int) : Option Binary64 := do
  let x ← ofRatio? digits 1
  let power := exponent.natAbs
  let y ← if 0 ≤ exponent then x.scaleUp? power else scaleDown? (power + 1) x power
  return { y with negative }

/-- How many digits a positive number has before the point; zeros after it count down. -/
def decimalExponent (x : Binary64) : Int :=
  let shifted :=
    x.mantissa * Nat.pow 2 x.exponent.toNat * Nat.pow 10 400 / Nat.pow 2 (-x.exponent).toNat
  ((Nat.toDigits 10 shifted).length : Int) - 400

/-- The point of the grid `10 ^ k` that is nearest to the number, if it lies among the reals that
round to the number. -/
def onGrid? (x : Binary64) (k : Int) : Option Nat :=
  let q := x.exponent - 2
  let unit := Nat.pow 2 q.toNat * Nat.pow 10 (-k).toNat
  let grid := Nat.pow 10 k.toNat * Nat.pow 2 (-q).toNat
  let middle := 4 * x.mantissa * unit
  let below := if x.mantissa = Nat.pow 2 52 ∧ minExponent < x.exponent then 1 else 2
  let low := (4 * x.mantissa - below) * unit
  let high := (4 * x.mantissa + 2) * unit
  let inside (c : Nat) :=
    if x.mantissa % 2 = 0 then low ≤ c * grid ∧ c * grid ≤ high
    else low < c * grid ∧ c * grid < high
  let down := middle / grid
  let gapDown := middle - down * grid
  let gapUp := (down + 1) * grid - middle
  let (first, second) :=
    if gapDown < gapUp ∨ (gapDown = gapUp ∧ down % 2 = 0) then (down, down + 1)
    else (down + 1, down)
  if inside first then some first else if inside second then some second else none

/-- Drops zeros at the end of a decimal, at most `fuel` of them. -/
def dropZeros : (fuel digits : Nat) → (exponent : Int) → Nat × Int
  | 0, digits, exponent => (digits, exponent)
  | fuel + 1, digits, exponent =>
    if digits % 10 = 0 then dropZeros fuel (digits / 10) (exponent + 1) else (digits, exponent)

/-- The decimal with the fewest digits that is nearest to a positive number. -/
def shortest (x : Binary64) : Nat × Int :=
  let top := x.decimalExponent
  let found? := (List.range' 1 17).findSome? fun (n : Nat) =>
    (x.onGrid? (top - n)).map fun digits => (digits, top - n)
  let (digits, exponent) := found?.getD (x.mantissa, 0)
  dropZeros 20 digits exponent

/-- The text of a number: with a point between about `1e-5` and `1e16`, else with an exponent. -/
def toText (x : Binary64) : Text :=
  let (digits, exponent) := x.shortest
  let ds := Nat.toDigits 10 digits
  let point := (ds.length : Int) + exponent
  let power : Text := 'e' :: (toString (point - 1)).toList
  let unsigned : Text :=
    if x.mantissa = 0 then "0.0"
    else if 0 ≤ exponent ∧ point ≤ 16 then ds ++ List.replicate exponent.toNat '0' ++ ".0"
    else if 0 < point ∧ point ≤ 16 then ds.take point.toNat ++ '.' :: ds.drop point.toNat
    else if -5 < point ∧ point ≤ 0 then "0." ++ List.replicate (-point).toNat '0' ++ ds
    else if ds.length = 1 then ds ++ power
    else ds.take 1 ++ '.' :: ds.drop 1 ++ power
  if x.negative then '-' :: unsigned else unsigned

end Binary64
end NamespaceMigration
