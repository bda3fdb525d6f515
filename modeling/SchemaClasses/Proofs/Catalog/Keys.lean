import Mathlib.Data.List.TakeWhile
import SchemaClasses.Location

/-!
# Keys of documents

A key has parts between its hashes: the path of a file, the fragments that were selected one after
another, and the places where objects are declared inside a class. What comes before the first such
place is the key of the class that all of them are declared in, the host of the key. Keys of files
and of their fragments are their own hosts.
-/

namespace SchemaClasses

namespace Text

variable {sep : Char → Bool}

theorem pieces_of_none {cs : List Char} (h : ∀ c ∈ cs, sep c = false) : pieces sep cs = [cs] := by
  induction cs with
  | nil => rfl
  | cons c rest ih =>
    have hc := h c List.mem_cons_self
    have hrest := ih fun d hd => h d (List.mem_cons_of_mem _ hd)
    simp [pieces, hc, hrest]

theorem pieces_append {c : Char} (hc : sep c = true) (before after : List Char) :
    pieces sep (before ++ c :: after) = pieces sep before ++ pieces sep after := by
  induction before with
  | nil => simp [pieces, hc]
  | cons d rest ih =>
    rw [List.cons_append, pieces, pieces, ih]
    split
    · rfl
    · cases hrest : pieces sep rest with
      | nil => exact absurd hrest (pieces_ne_nil sep rest)
      | cons piece more => rfl

theorem exists_pieces_cons {c : Char} (hc : sep c = false) (cs : List Char) :
    ∃ piece more, pieces sep (c :: cs) = (c :: piece) :: more := by
  obtain ⟨piece, more, hpieces⟩ := List.exists_cons_of_ne_nil (pieces_ne_nil sep cs)
  exact ⟨piece, more, by simp [pieces, hc, hpieces]⟩

theorem not_mem_of_mem_pieces {s : Char} {piece cs : List Char} (h : piece ∈ pieces (· == s) cs) :
    s ∉ piece := by
  induction cs generalizing piece with
  | nil =>
    rw [pieces, List.mem_singleton] at h
    simp [h]
  | cons c cs ih =>
    rw [pieces] at h
    split at h
    · rcases List.mem_cons.mp h with rfl | h
      · exact List.not_mem_nil
      · exact ih h
    · rename_i hc
      have hne : s ≠ c := fun heq => hc (by simp [heq])
      split at h
      · rw [List.mem_singleton] at h
        simp [h, hne]
      · rename_i first more hpieces
        rw [hpieces] at ih
        rcases List.mem_cons.mp h with rfl | h
        · simp [hne, ih List.mem_cons_self]
        · exact ih (List.mem_cons_of_mem _ h)

/-- A character that separates nothing is in one of the pieces. -/
theorem exists_mem_pieces {c : Char} {cs : List Char} (h : c ∈ cs) (hsep : sep c = false) :
    ∃ piece ∈ pieces sep cs, c ∈ piece := by
  induction cs with
  | nil => cases h
  | cons first rest ih =>
    rw [pieces]
    rcases List.mem_cons.mp h with rfl | h
    · rw [if_neg (by simp [hsep])]
      split <;> exact ⟨_, List.mem_cons_self, List.mem_cons_self⟩
    · obtain ⟨piece, hpiece, hc⟩ := ih h
      split
      · exact ⟨piece, List.mem_cons_of_mem _ hpiece, hc⟩
      · split
        · rename_i hnil
          rw [hnil] at hpiece
          cases hpiece
        · rename_i head more hcons
          rw [hcons] at hpiece
          rcases List.mem_cons.mp hpiece with rfl | hpiece
          · exact ⟨_, List.mem_cons_self, List.mem_cons_of_mem _ hc⟩
          · exact ⟨piece, List.mem_cons_of_mem _ hpiece, hc⟩

end Text

namespace Location

def parts (key : String) : List (List Char) := Text.pieces (· == '#') key.toList

def isFragment (part : List Char) : Bool := part.head? = some '/'

/-- The parts up to the first one that selects nothing: those of the class in which the document
with the key is declared. -/
def host (key : String) : List (List Char) :=
  (parts key).take 1 ++ ((parts key).drop 1).takeWhile isFragment

/-- The key of a document that is declared inside a class. -/
def IsInline (key : String) : Prop := host key ≠ parts key

instance (key : String) : Decidable (IsInline key) :=
  inferInstanceAs (Decidable (host key ≠ parts key))

/-- A reference has at most one hash, and its fragment is empty or starts with a slash. -/
structure IsPlain (reference : String) : Prop where
  single : '#' ∉ (splitReference reference).2.toList
  fragment : (splitReference reference).2 = "" ∨
    isFragment (splitReference reference).2.toList = true

instance (reference : String) : Decidable (IsPlain reference) :=
  decidable_of_iff ('#' ∉ (splitReference reference).2.toList ∧
      ((splitReference reference).2 = "" ∨
        isFragment (splitReference reference).2.toList = true))
    ⟨fun h => ⟨h.1, h.2⟩, fun h => ⟨h.single, h.fragment⟩⟩

variable {key other fragment more : String}

theorem parts_injective (h : parts key = parts other) : key = other := by
  apply String.toList_injective
  rw [← Text.join_pieces '#' key.toList, ← Text.join_pieces '#' other.toList]
  exact congrArg (Text.join ['#']) h

theorem parts_of_not_mem (h : '#' ∉ key.toList) : parts key = [key.toList] := by
  apply Text.pieces_of_none
  intro c hc
  rw [beq_eq_false_iff_ne]
  rintro rfl
  exact h hc

theorem splitReference_of_not_mem {reference : String} (h : '#' ∉ reference.toList) :
    splitReference reference = (reference, "") := by
  rw [splitReference, Text.cutFirst_eq_none h]

theorem parts_append (key fragment : String) :
    parts (key ++ "#" ++ fragment) = parts key ++ parts fragment := by
  unfold parts
  have htext : (key ++ "#" ++ fragment).toList = key.toList ++ '#' :: fragment.toList := by simp
  rw [htext]
  exact Text.pieces_append rfl _ _

theorem append_inj (hfragment : '#' ∉ fragment.toList) (hmore : '#' ∉ more.toList)
    (h : key ++ "#" ++ fragment = other ++ "#" ++ more) : key = other ∧ fragment = more := by
  have hparts : parts key ++ [fragment.toList] = parts other ++ [more.toList] := by
    rw [← parts_of_not_mem hfragment, ← parts_of_not_mem hmore, ← parts_append, h, parts_append]
  obtain ⟨hkey, hlast⟩ := List.append_inj' hparts rfl
  exact ⟨parts_injective hkey, String.toList_injective (List.singleton_inj.mp hlast)⟩

theorem inline_eq (key path : String) :
    key ++ "#inline/" ++ path = key ++ "#" ++ ("inline/" ++ path) := by
  simp [← String.toList_inj]

/-- The key of an object that is declared at a path tells the path and the key of its owner. -/
theorem inline_inj {path : String} (hpath : '#' ∉ path.toList) (hmore : '#' ∉ more.toList)
    (h : key ++ "#inline/" ++ path = other ++ "#inline/" ++ more) : key = other ∧ path = more := by
  rw [inline_eq, inline_eq] at h
  obtain ⟨hkey, hpaths⟩ := append_inj (by simp [hpath]) (by simp [hmore]) h
  exact ⟨hkey, by simpa [← String.toList_inj] using hpaths⟩

theorem exists_parts_eq_cons (key : String) : ∃ file rest, parts key = file :: rest :=
  List.exists_cons_of_ne_nil (Text.pieces_ne_nil _ _)

theorem host_eq {file : List Char} {rest : List (List Char)} (h : parts key = file :: rest) :
    host key = file :: rest.takeWhile isFragment := by
  simp [host, h]

theorem host_ne_nil (key : String) : host key ≠ [] := by
  obtain ⟨file, rest, hparts⟩ := exists_parts_eq_cons key
  simp [host_eq hparts]

theorem isInline_iff {file : List Char} {rest : List (List Char)} (h : parts key = file :: rest) :
    IsInline key ↔ ∃ part ∈ rest, isFragment part = false := by
  have hself : ¬IsInline key ↔ ∀ part ∈ rest, isFragment part = true := by
    rw [IsInline, not_not, host_eq h, h, List.cons.injEq, List.takeWhile_eq_self_iff]
    exact and_iff_right rfl
  rw [← not_not (a := IsInline key), hself]
  simp

theorem not_isInline_of_not_mem (h : '#' ∉ key.toList) : ¬IsInline key := by
  rw [isInline_iff (parts_of_not_mem h)]
  simp

/-- More parts do not change the host of a key that is not its own host. -/
theorem host_append_of_isInline (h : IsInline key) (more : String) :
    host (key ++ "#" ++ more) = host key ∧ IsInline (key ++ "#" ++ more) := by
  obtain ⟨file, rest, hparts⟩ := exists_parts_eq_cons key
  have happend : parts (key ++ "#" ++ more) = file :: (rest ++ parts more) := by
    rw [parts_append, hparts, List.cons_append]
  obtain ⟨part, hpart, hfragment⟩ := (isInline_iff hparts).mp h
  refine ⟨?_, (isInline_iff happend).mpr ⟨part, List.mem_append_left _ hpart, hfragment⟩⟩
  have hshort : (rest.takeWhile isFragment).length ≠ rest.length := by
    intro hlength
    have hself := (List.takeWhile_prefix isFragment).eq_of_length hlength
    have := List.takeWhile_eq_self_iff.mp hself part hpart
    rw [hfragment] at this
    cases this
  rw [host_eq happend, host_eq hparts, List.takeWhile_append, if_neg hshort]

theorem not_isInline_append (h : ¬IsInline key) (hfragment : isFragment fragment.toList = true)
    (hsingle : '#' ∉ fragment.toList) : ¬IsInline (key ++ "#" ++ fragment) := by
  obtain ⟨file, rest, hparts⟩ := exists_parts_eq_cons key
  have happend : parts (key ++ "#" ++ fragment) = file :: (rest ++ [fragment.toList]) := by
    rw [parts_append, hparts, parts_of_not_mem hsingle, List.cons_append]
  rw [isInline_iff hparts] at h
  rw [isInline_iff happend]
  rintro ⟨part, hpart, hnot⟩
  rcases List.mem_append.mp hpart with hpart | hpart
  · exact h ⟨part, hpart, hnot⟩
  · rw [List.mem_singleton.mp hpart, hfragment] at hnot
    cases hnot

/-- What is declared at a place has the host of the class that declares it. -/
theorem host_inline (key path : String) :
    host (key ++ "#inline/" ++ path) = host key ∧ IsInline (key ++ "#inline/" ++ path) := by
  have hkey : key ++ "#inline/" ++ path = key ++ "#" ++ ("inline/" ++ path) := by
    simp [← String.toList_inj]
  rw [hkey]
  by_cases h : IsInline key
  · exact host_append_of_isInline h _
  · obtain ⟨file, rest, hparts⟩ := exists_parts_eq_cons key
    obtain ⟨first, more, hmore⟩ : ∃ first more,
        parts ("inline/" ++ path) = ('i' :: first) :: more := by
      have htext : ("inline/" ++ path).toList = 'i' :: ("nline/".toList ++ path.toList) := by simp
      rw [parts, htext]
      exact Text.exists_pieces_cons rfl _
    have hfirst : isFragment ('i' :: first) = false := rfl
    have happend : parts (key ++ "#" ++ ("inline/" ++ path)) =
        file :: (rest ++ ('i' :: first) :: more) := by
      rw [parts_append, hparts, hmore, List.cons_append]
    have hself : rest.takeWhile isFragment = rest := by
      rw [IsInline, not_not, host_eq hparts, hparts] at h
      exact (List.cons.inj h).2
    refine ⟨?_, (isInline_iff happend).mpr ⟨_, by simp, hfirst⟩⟩
    rw [host_eq happend, host_eq hparts, List.takeWhile_append, if_pos (by rw [hself]),
      List.takeWhile_cons, if_neg (by simp [hfirst]), hself, List.append_nil]

theorem host_firstEntry (key : String) :
    (IsInline (key ++ "#/allOf/0") ↔ IsInline key) ∧
      (IsInline key → host (key ++ "#/allOf/0") = host key) := by
  have hkey : key ++ "#/allOf/0" = key ++ "#" ++ "/allOf/0" := by simp [← String.toList_inj]
  rw [hkey]
  by_cases h : IsInline key
  · obtain ⟨hhost, hinline⟩ := host_append_of_isInline h "/allOf/0"
    exact ⟨iff_of_true hinline h, fun _ => hhost⟩
  · have hnot := @not_isInline_append key "/allOf/0" h rfl (by decide)
    exact ⟨iff_of_false hnot h, fun hinline => absurd hinline h⟩

/-- A key that may come up while a class with the given host is drafted: one that is its own host,
or one of a document that is declared in the same class. -/
def SeenFrom (home : List (List Char)) (key : String) : Prop := ¬IsInline key ∨ host key = home

variable {home : List (List Char)}

theorem SeenFrom.firstEntry (h : SeenFrom home key) : SeenFrom home (key ++ "#/allOf/0") := by
  obtain ⟨hinline, hhost⟩ := host_firstEntry key
  rcases h with h | h
  · exact .inl fun hfirst => h (hinline.mp hfirst)
  · by_cases hkey : IsInline key
    · exact .inr ((hhost hkey).trans h)
    · exact .inl fun hfirst => hkey (hinline.mp hfirst)

end Location

end SchemaClasses
