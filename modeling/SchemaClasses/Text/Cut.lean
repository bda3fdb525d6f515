/-!
# Cutting text

Text is cut at its first separator (`cutFirst`), at its last (`cutLast`) or at all of them
(`pieces`). No separator is in any of the parts that a cut at single characters gives.
-/

namespace SchemaClasses.Text

/-- The text before the first character that `sep` accepts, and the text after it. -/
def cutFirst (sep : Char → Bool) : List Char → Option (List Char × List Char)
  | [] => none
  | c :: rest =>
    if sep c then some ([], rest)
    else (cutFirst sep rest).map fun parts => (c :: parts.1, parts.2)

/-- The text before the last occurrence of `sep`, and the text after it. -/
def cutLast (sep : List Char) : List Char → Option (List Char × List Char)
  | [] => none
  | c :: rest =>
    match cutLast sep rest with
    | some (before, after) => some (c :: before, after)
    | none => if sep.isPrefixOf (c :: rest) then some ([], (c :: rest).drop sep.length) else none

/-- The parts between the characters that `sep` accepts; text without any is its only part. -/
def pieces (sep : Char → Bool) : List Char → List (List Char)
  | [] => [[]]
  | c :: rest =>
    if sep c then [] :: pieces sep rest
    else
      match pieces sep rest with
      | [] => [[c]]
      | piece :: more => (c :: piece) :: more

/-- The text before the suffix `ending`, if it has that suffix. -/
def dropEnding? (ending cs : List Char) : Option (List Char) :=
  if ending.isSuffixOf cs then some (cs.take (cs.length - ending.length)) else none

def occurs (part : List Char) : List Char → Bool
  | [] => part.isEmpty
  | c :: rest => part.isPrefixOf (c :: rest) || occurs part rest

/-- The parts, each followed by `sep` unless it is the last. -/
def join (sep : List Char) : List (List Char) → List Char
  | [] => []
  | [part] => part
  | part :: more => part ++ sep ++ join sep more

theorem cutFirst_append {s : Char} {before : List Char} (h : s ∉ before) (after : List Char) :
    cutFirst (· == s) (before ++ s :: after) = some (before, after) := by
  induction before with
  | nil => simp [cutFirst]
  | cons c before ih =>
    obtain ⟨hc, hbefore⟩ := not_or.mp (mt List.mem_cons.mpr h)
    simp [cutFirst, Ne.symm hc, ih hbefore]

theorem cutFirst_eq_none {s : Char} {cs : List Char} (h : s ∉ cs) :
    cutFirst (· == s) cs = none := by
  induction cs with
  | nil => rfl
  | cons c cs ih =>
    obtain ⟨hc, hcs⟩ := not_or.mp (mt List.mem_cons.mpr h)
    simp [cutFirst, Ne.symm hc, ih hcs]

theorem pieces_ne_nil (sep : Char → Bool) (cs : List Char) : pieces sep cs ≠ [] := by
  induction cs with
  | nil => simp [pieces]
  | cons c rest ih =>
    unfold pieces
    split
    · simp
    · split <;> simp

/-- Joining the pieces gives the text back. -/
theorem join_pieces (s : Char) (cs : List Char) : join [s] (pieces (· == s) cs) = cs := by
  induction cs with
  | nil => simp [pieces, join]
  | cons c rest ih =>
    unfold pieces
    split
    · rename_i h
      have hc : c = s := by simpa using h
      cases hp : pieces (· == s) rest with
      | nil => exact absurd hp (pieces_ne_nil _ _)
      | cons piece more => rw [hp] at ih; simp [join, ih, hc]
    · cases hp : pieces (· == s) rest with
      | nil => exact absurd hp (pieces_ne_nil _ _)
      | cons piece more =>
        rw [hp] at ih
        cases more with
        | nil => simpa [join] using ih
        | cons next more => simpa [join] using ih

end SchemaClasses.Text
