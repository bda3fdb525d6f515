import SchemaClasses.Text.Uppercase.Table

/-!
# Upper case

The upper case of a character is the text that the tables of Unicode give it: several characters,
one, or the character itself.
-/

namespace SchemaClasses.Text

/-- The code point that a run of the table maps `n` to. -/
def CaseRun.map? (run : CaseRun) (n : Nat) : Option Nat :=
  if run.first ≤ n ∧ n ≤ run.last ∧ (n - run.first) % run.stride = 0 then
    some (Int.toNat (n + run.shift))
  else none

/-- The upper case of a character. -/
def uppercase (c : Char) : List Char :=
  match caseExpansions.lookup c.toNat with
  | some codes => codes.map Char.ofNat
  | none =>
    match caseRuns.findSome? (·.map? c.toNat) with
    | some code => [Char.ofNat code]
    | none => [c]

def capitalize : List Char → List Char
  | [] => []
  | c :: rest => uppercase c ++ rest

example : capitalize "alphaMode".toList = "AlphaMode".toList := by decide
example : capitalize "ßa".toList = "SSa".toList := by decide
example : capitalize "ÿ".toList = "Ÿ".toList := by decide

end SchemaClasses.Text
