import SchemaClasses.Number.Numeral
import SchemaClasses.Number.Shortest

/-!
# Number texts

Integers are written plainly. Other numbers have the fewest digits that read back: positional with
a point and at least one digit on either side of it when the leading digit stands for `10 ^ -5` to
`10 ^ 15`, and otherwise in scientific form with a signed exponent.
-/

namespace SchemaClasses

/-- Text of the digits `ds`, the first of which stands for `10 ^ leading`, in positional form. -/
def positional (ds : List Char) (leading : Int) : List Char :=
  if leading < 0 then
    "0.".toList ++ List.replicate (-leading - 1).toNat '0' ++ ds
  else
    let whole := leading.toNat + 1
    if ds.length ≤ whole then
      ds ++ List.replicate (whole - ds.length) '0' ++ ".0".toList
    else ds.take whole ++ '.' :: ds.drop whole

/-- Text of the digits `ds`, the first of which stands for `10 ^ leading`, in scientific form. -/
def scientific (ds : List Char) (leading : Int) : List Char :=
  let point := if ds.length ≤ 1 then [] else '.' :: ds.drop 1
  let sign := if leading < 0 then '-' else '+'
  ds.take 1 ++ point ++ 'e' :: sign :: leading.natAbs.repr.toList

def Magnitude.text (x : Magnitude) : List Char :=
  if x.isZero then "0.0".toList
  else
    let decimal := x.shortest
    let ds := decimal.digits.repr.toList
    let leading := decimal.exponent + ds.length - 1
    if -5 ≤ leading ∧ leading ≤ 15 then positional ds leading else scientific ds leading

example : (Magnitude.ofNat? (10 ^ 15)).map Magnitude.text = some "1000000000000000.0".toList := by
  decide +kernel
example : (Magnitude.ofNat? (10 ^ 16)).map Magnitude.text = some "1e+16".toList := by
  decide +kernel
example : (Magnitude.ofNat? (2 ^ 64)).map Magnitude.text =
    some "1.8446744073709552e+19".toList := by
  decide +kernel
example : Magnitude.text ⟨1, 0⟩ = "5e-324".toList := by decide +kernel
example : (Numeral.scaled? 1 (-5)).map Magnitude.text = some "0.00001".toList := by decide +kernel
example : (Numeral.scaled? 1 (-6)).map Magnitude.text = some "1e-6".toList := by decide +kernel

def Number.text : Number → String
  | .int value => value.repr
  | .float value =>
    String.ofList (if value.negative then '-' :: value.magnitude.text else value.magnitude.text)

end SchemaClasses
