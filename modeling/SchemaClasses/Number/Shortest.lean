import SchemaClasses.Number.Binary64

/-!
# Shortest decimals

The decimals that round to a magnitude fill an interval around it, whose ends belong to it when the
significand is even. `Magnitude.shortest` gives the decimal of fewest digits in that interval: it
tries grids of spacing `10 ^ k` from the coarsest on, and on the first with a point in the interval
it takes the point nearest to the magnitude, of two equally near the even one. Only the two
neighbours of the magnitude on a grid need a look, for any other point of the grid in the interval
has one of them between it and the magnitude.
-/

namespace SchemaClasses

/-- A positive decimal, `digits * 10 ^ exponent`. -/
structure Decimal where
  digits : Nat
  exponent : Int
  deriving DecidableEq, Repr

namespace Magnitude

def decimalLength (n : Nat) : Nat := (Nat.toDigits 10 n).length

/-- The exponent of the leading decimal digit of a positive magnitude. -/
def leadingExponent (x : Magnitude) : Int :=
  if unitsPerOne ≤ x.units then decimalLength (x.units / unitsPerOne) - 1
  else - (decimalLength ((unitsPerOne + x.units - 1) / x.units - 1) : Int)

/-- The point nearest to `x` of those that round to `x` on the grid of spacing `10 ^ k`. All is
counted in quarter units, because the interval ends half a unit in the last place away, and below
a power of two a quarter. -/
def gridPoint? (x : Magnitude) (k : Int) : Option Nat :=
  let scale := if k < 0 then Nat.pow 10 (-k).toNat else 1
  let spacing := 4 * unitsPerOne * (if k < 0 then 1 else Nat.pow 10 k.toNat)
  let place := scale <<< x.shift
  let value := 4 * x.significand * place
  let low := value - (if x.significand = 1 <<< 52 ∧ 0 < x.shift then 1 else 2) * place
  let high := value + 2 * place
  let inside (c : Nat) : Bool :=
    if x.significand % 2 = 0 then low ≤ c * spacing && c * spacing ≤ high
    else low < c * spacing && c * spacing < high
  let below := value / spacing
  let down := value - below * spacing
  let up := (below + 1) * spacing - value
  match inside below, inside (below + 1) with
  | true, true =>
    some (if down < up ∨ (down = up ∧ below % 2 = 0) then below else below + 1)
  | true, false => some below
  | false, true => some (below + 1)
  | false, false => none

/-- The shortest decimal that rounds to a positive magnitude. Seventeen digits always suffice. -/
def shortest (x : Magnitude) : Decimal :=
  let top := x.leadingExponent + 1
  let found := (List.range 19).findSome? fun (i : Nat) =>
    (x.gridPoint? (top - i)).map fun digits => Decimal.mk digits (top - i)
  found.getD ⟨0, 0⟩

example : (ofNat? 100).map shortest = some ⟨1, 2⟩ := by decide +kernel
example : shortest ⟨1, 0⟩ = ⟨5, -324⟩ := by decide +kernel
example : shortest ⟨2 ^ 53 - 1, 2045⟩ = ⟨17976931348623157, 292⟩ := by decide +kernel

end Magnitude

end SchemaClasses
