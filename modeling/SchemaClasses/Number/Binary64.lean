/-!
# Finite binary64 numbers

A magnitude is a whole number of units of `2 ^ -1074`, the least positive binary64 number, written
as `significand * 2 ^ shift`. Products and quotients are the exact results rounded to the nearest
magnitude, a half to the even significand; `none` stands for a result beyond the greatest finite
number. Everything is exact arithmetic on natural numbers, so each result can be computed by the
kernel.
-/

namespace SchemaClasses

/-- A finite magnitude, `significand * 2 ^ shift` units of `2 ^ -1074`. -/
structure Magnitude where
  significand : Nat
  shift : Nat
  deriving DecidableEq, Repr

/-- A finite number. Zero has two signs. -/
structure Binary64 where
  negative : Bool
  magnitude : Magnitude
  deriving DecidableEq, Repr

namespace Magnitude

/-- How many units make one. -/
def unitsPerOne : Nat := 1 <<< 1074

/-- The quotient rounded to the nearest whole number, a half to the even one. -/
def roundHalfEven (num den : Nat) : Nat :=
  let q := num / den
  let r := num % den
  if 2 * r < den then q
  else if den < 2 * r then q + 1
  else q + q % 2

def units (x : Magnitude) : Nat := x.significand <<< x.shift

def zero : Magnitude := ⟨0, 0⟩

def isZero (x : Magnitude) : Bool := x.significand = 0

/-- The magnitude nearest to a quotient of units. -/
def nearest? (num den : Nat) : Option Magnitude :=
  let whole := num / den
  let shift := if whole < 1 <<< 53 then 0 else whole.log2 - 52
  let significand := roundHalfEven num (den <<< shift)
  let rounded : Magnitude :=
    if significand < 1 <<< 53 then ⟨significand, shift⟩ else ⟨1 <<< 52, shift + 1⟩
  if rounded.shift ≤ 2045 then some rounded else none

def ofNat? (n : Nat) : Option Magnitude := nearest? (n * unitsPerOne) 1

def mul? (x y : Magnitude) : Option Magnitude := nearest? (x.units * y.units) unitsPerOne

def div? (x y : Magnitude) : Option Magnitude := nearest? (x.units * unitsPerOne) y.units

example : ofNat? (2 ^ 53 + 1) = some ⟨2 ^ 52, 1075⟩ := by decide +kernel
example : ofNat? (2 ^ 1024 - 2 ^ 970) = none := by decide +kernel

end Magnitude

end SchemaClasses
