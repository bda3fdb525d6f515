import SchemaClasses.Number.Binary64

/-!
# Decimal numerals

What a numeral stands for. A numeral without fraction and exponent is an integer when the integer
fits 64 bits: unsigned, or signed after a minus. Every other numeral, `-0` included, is a binary64
number, found in three steps: as many leading digits as fit an unsigned 64-bit word make a
significand, the rest of the digits only count towards a power of ten, and the significand is
multiplied or divided by that power. Each step rounds, so the result can differ in its last place
from the number nearest to the numeral.
-/

namespace SchemaClasses

/-- A JSON number: integers are kept apart from binary64 numbers. -/
inductive Number where
  | int (value : Int)
  | float (value : Binary64)
  deriving DecidableEq, Repr

/-- The written parts of a number, each digit as its value. A numeral without a point has no
`fraction`; one with a point has a digit after it. -/
structure Numeral where
  negative : Bool
  whole : List Nat
  fraction : List Nat
  /-- Sign (whether negative) and digits. -/
  exponent : Option (Bool × List Nat)
  deriving DecidableEq, Repr

namespace Numeral

/-- Appends digits to a number while it fits 64 bits, and gives the digits left over. -/
def gather : Nat → List Nat → Nat × List Nat
  | acc, [] => (acc, [])
  | acc, d :: rest =>
    if acc * 10 + d < 1 <<< 64 then gather (acc * 10 + d) rest else (acc, d :: rest)

def spelled (digits : List Nat) : Nat := digits.foldl (fun acc d => acc * 10 + d) 0

/-- A power of ten, rounded. -/
def tenTo (k : Nat) : Magnitude := (Magnitude.ofNat? (Nat.pow 10 k)).getD .zero

/-- The significand times a power of ten; `none` beyond the finite numbers. -/
def scaled? (significand : Nat) (exponent : Int) : Option Magnitude := do
  let f ← Magnitude.ofNat? significand
  if 0 ≤ exponent then
    if exponent ≤ 308 then f.mul? (tenTo exponent.toNat)
    else if f.isZero then some .zero
    else none
  else if -308 ≤ exponent then f.div? (tenTo (-exponent).toNat)
  else if -616 ≤ exponent then
    let small ← f.div? (tenTo 308)
    small.div? (tenTo (-exponent - 308).toNat)
  else some .zero

/-- The written exponent when its size fits 31 bits. -/
def exponentValue? : Option (Bool × List Nat) → Option Int
  | none => some 0
  | some (negative, digits) =>
    let size := spelled digits
    if size < 1 <<< 31 then some (if negative then -(size : Int) else size) else none

/-- The magnitude that the digits stand for. An exponent too large to hold makes a zero of a zero
and of anything with a minus before that exponent. -/
def magnitude? (n : Numeral) : Option Magnitude :=
  let (significand, left) := gather 0 n.whole
  let (significand, unread) := gather significand n.fraction
  let places : Int := left.length - (n.fraction.length - unread.length : Nat)
  match exponentValue? n.exponent with
  | some e => scaled? significand (places + e)
  | none =>
    if significand = 0 ∨ (n.exponent.map Prod.fst) = some true then some .zero else none

/-- The number a numeral stands for; `none` beyond the finite numbers. -/
def value? (n : Numeral) : Option Number :=
  let integral := n.fraction.isEmpty && n.exponent.isNone
  match integral, gather 0 n.whole with
  | true, (size, []) =>
    if n.negative then
      if 0 < size ∧ size ≤ 1 <<< 63 then some (.int (-size))
      else (Magnitude.ofNat? size).map fun m => .float ⟨true, m⟩
    else some (.int size)
  | _, _ => n.magnitude?.map fun m => .float ⟨n.negative, m⟩

end Numeral

end SchemaClasses
