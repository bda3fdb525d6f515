/-!
# Digits

Integers are written with decimal digits, after a minus sign when they are negative. A numeral tells
which integer it is.
-/

namespace SchemaClasses.Text

theorem isDigit_of_mem_repr {n : Nat} {c : Char} (h : c ∈ n.repr.toList) : c.isDigit = true := by
  rw [Nat.toList_repr] at h
  exact Nat.isDigit_of_mem_toDigits (by omega) (by omega) h

theorem repr_injective : Function.Injective Nat.repr := by
  intro n m h
  have hdigits := congrArg String.toList h
  rw [Nat.toList_repr, Nat.toList_repr] at hdigits
  have hread := congrArg (Nat.ofDigitChars 10 · 0) hdigits
  simpa only [Nat.ofDigitChars_ten_toDigits] using hread

theorem repr_ne_minus (n m : Nat) : n.repr ≠ "-" ++ m.repr := by
  intro h
  have hmem : '-' ∈ n.repr.toList := by simp [h]
  cases isDigit_of_mem_repr hmem

theorem signed_repr_injective : Function.Injective Int.repr := by
  intro value other h
  rw [Int.repr_eq_if, Int.repr_eq_if] at h
  split at h <;> split at h
  · have := repr_injective h
    omega
  · exact absurd h (repr_ne_minus _ _)
  · exact absurd h.symm (repr_ne_minus _ _)
  · have := repr_injective ((String.append_right_inj _).mp h)
    omega

end SchemaClasses.Text
