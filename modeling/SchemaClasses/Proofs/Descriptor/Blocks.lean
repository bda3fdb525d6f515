import Mathlib.Data.List.DropRight
import Mathlib.Logic.Function.Iterate
import SchemaClasses.Descriptor.Size
import SchemaClasses.Text.Cut
import SchemaClasses.Text.Digits

/-!
# Reading statements in blocks

Lines of text in which blocks are opened and closed are read one after another, with the heads of
the blocks that are open. Every line has to be as far in as it has blocks around it, and a block may
be opened and closed on one line. What is read are the statements, each with the heads around it.
Statements that are put under a head read back as they did, one block further in.
-/

namespace SchemaClasses.Descriptor

/-! ### Statements in blocks -/

/-- A statement with the heads of the blocks that it is in, the innermost first. -/
structure Statement where
  heads : List String
  text : String
  deriving DecidableEq, Repr

/-- What a line says, apart from how far in it is. -/
inductive Line
  | opens (head : String)
  | closes
  | states (text : String)
  /-- A whole block with one statement in it. -/
  | wraps (head text : String)

def isBlank (c : Char) : Bool := c == ' '

def trimmed (cs : List Char) : String := String.ofList ((cs.dropWhile isBlank).rdropWhile isBlank)

namespace Line

def of? (line : List Char) : Option Line :=
  if line = ['\x7d'] then some .closes
  else
    match Text.cutFirst (· == '\x7b') line with
    | none => if '\x7d' ∈ line then none else some (.states (String.ofList line))
    | some (head, []) => some (.opens (trimmed head))
    | some (head, inner) =>
      match Text.cutFirst (· == '\x7d') inner with
      | some (text, []) => some (.wraps (trimmed head) (trimmed text))
      | _ => none

def level (heads : List String) : Line → Nat
  | closes => heads.length - 1
  | opens _ | states _ | wraps _ _ => heads.length

/-- The blocks that are open after a line, and the statements in it. -/
def after? (heads : List String) : Line → Option (List String × List Statement)
  | opens head => some (head :: heads, [])
  | closes =>
    match heads with
    | [] => none
    | _ :: outer => some (outer, [])
  | states text => some (heads, [⟨heads, text⟩])
  | wraps head text => some (heads, [⟨head :: heads, text⟩])

end Line

/-- Reads a line that is indented by two blanks for each block that it is in. -/
def readLine (heads : List String) (line : String) : Option (List String × List Statement) :=
  match Line.of? (line.toList.dropWhile isBlank) with
  | none => none
  | some kind =>
    if (line.toList.takeWhile isBlank).length = 2 * kind.level heads then kind.after? heads
    else none

/-- Reads lines while blocks with some heads are open, up to the blocks that are open then. -/
def readLines : List String → List String → Option (List String × List Statement)
  | heads, [] => some (heads, [])
  | heads, line :: lines =>
    (readLine heads line).bind fun (next, said) =>
      (readLines next lines).map fun (last, more) => (last, said ++ more)

/-- A statement that is not as far in as its block is not read. -/
example : readLines [] ["if (a) \x7b", "b", "\x7d"] = none := by decide

theorem readLines_append (heads first second : List String) :
    readLines heads (first ++ second) = (readLines heads first).bind fun (next, said) =>
      (readLines next second).map fun (last, more) => (last, said ++ more) := by
  induction first generalizing heads with
  | nil => simp [readLines]
  | cons line first ih =>
    rw [List.cons_append, readLines, readLines]
    cases readLine heads line with
    | none => rfl
    | some read =>
      simp only [Option.bind_some, ih, Option.bind_map, Option.map_bind]
      cases readLines read.1 first with
      | none => rfl
      | some rest =>
        simp only [Option.bind_some, Function.comp_apply, Option.map_map]
        congr 1
        funext ⟨last, more⟩
        simp

/-- Lines that stand in the blocks with the given heads are read as statements, and open no block
that they do not close. -/
def Reads (heads lines : List String) (said : List Statement) : Prop :=
  readLines heads (lines.map (indent^[heads.length])) = some (heads, said)

/-! ### Texts without braces -/

def IsBraceless (text : String) : Prop := '\x7b' ∉ text.toList ∧ '\x7d' ∉ text.toList

instance (text : String) : Decidable (IsBraceless text) :=
  inferInstanceAs (Decidable (_ ∧ _))

@[simp] theorem isBraceless_append {first second : String} :
    IsBraceless (first ++ second) ↔ IsBraceless first ∧ IsBraceless second := by
  simp only [IsBraceless, String.toList_append, List.mem_append]
  tauto

theorem isBraceless_repr (n : Nat) : IsBraceless n.repr :=
  ⟨fun h => absurd (Text.isDigit_of_mem_repr h) (by decide),
    fun h => absurd (Text.isDigit_of_mem_repr h) (by decide)⟩

/-- A text that is told from the blanks and braces around it in a line. -/
structure IsPlain (text : String) : Prop where
  braceless : IsBraceless text
  first : text.toList.head?.map isBlank = some false
  last : text.toList.getLast?.map isBlank = some false

section

variable {text head : String} {heads lines body more : List String} {said after : List Statement}

theorem isPlain_of_ends {opening inside closing : String}
    (hopening : opening.toList.head?.map isBlank = some false)
    (hclosing : closing.toList.getLast?.map isBlank = some false)
    (hbraceless : IsBraceless (opening ++ inside ++ closing)) :
    IsPlain (opening ++ inside ++ closing) := by
  refine ⟨hbraceless, ?_, ?_⟩
  · obtain ⟨c, hc, hblank⟩ := Option.map_eq_some_iff.mp hopening
    simp [hc, hblank]
  · obtain ⟨c, hc, hblank⟩ := Option.map_eq_some_iff.mp hclosing
    simp [hc, hblank]

theorem IsPlain.trimmed (h : IsPlain text) : trimmed (text.toList ++ [' ']) = text := by
  obtain ⟨first, hfirst, hbegins⟩ := Option.map_eq_some_iff.mp h.first
  obtain ⟨last, hlast, hends⟩ := Option.map_eq_some_iff.mp h.last
  obtain ⟨rest, hrest⟩ := List.head?_eq_some_iff.mp hfirst
  obtain ⟨before, hbefore⟩ := List.getLast?_eq_some_iff.mp hlast
  have hdrop : (text.toList ++ [' ']).dropWhile isBlank = text.toList ++ [' '] := by
    rw [hrest, List.cons_append, List.dropWhile_cons_of_neg (by simp [hbegins])]
  rw [Descriptor.trimmed, hdrop, List.rdropWhile_concat_pos _ _ _ rfl, hbefore,
    List.rdropWhile_concat_neg _ _ _ (by simp [hends]), ← hbefore, String.ofList_toList]

namespace Line

theorem of?_states (h : IsPlain text) : of? text.toList = some (states text) := by
  obtain ⟨hopen, hclose⟩ := h.braceless
  have hne : text.toList ≠ ['\x7d'] :=
    fun heq => hclose (by rw [heq]; exact List.mem_singleton_self _)
  rw [of?, if_neg hne, Text.cutFirst_eq_none hopen]
  simp [hclose]

theorem of?_opens (h : IsPlain head) : of? (head ++ " \x7b").toList = some (opens head) := by
  have hchars : (head ++ " \x7b").toList = (head.toList ++ [' ']) ++ '\x7b' :: [] := by simp
  have hopen : '\x7b' ∉ head.toList ++ [' '] := by simp [h.braceless.1]
  have hne : (head.toList ++ [' ']) ++ '\x7b' :: [] ≠ ['\x7d'] :=
    fun heq => by simpa using congrArg List.length heq
  rw [hchars, of?, if_neg hne, Text.cutFirst_append hopen]
  simp only [h.trimmed]

theorem of?_wraps (hhead : IsPlain head) (htext : IsPlain text) :
    of? (head ++ " \x7b " ++ text ++ " \x7d").toList = some (wraps head text) := by
  have hchars : (head ++ " \x7b " ++ text ++ " \x7d").toList =
      (head.toList ++ [' ']) ++ '\x7b' :: ((' ' :: (text.toList ++ [' '])) ++ '\x7d' :: []) := by
    simp
  have hopen : '\x7b' ∉ head.toList ++ [' '] := by simp [hhead.braceless.1]
  have hclose : '\x7d' ∉ ' ' :: (text.toList ++ [' ']) := by simp [htext.braceless.2]
  have htrimmed : trimmed (' ' :: (text.toList ++ [' '])) = text := htext.trimmed
  have hne : (head ++ " \x7b " ++ text ++ " \x7d").toList ≠ ['\x7d'] := by
    intro heq
    have hlength := congrArg List.length heq
    simp only [hchars, List.length_append, List.length_cons, List.length_nil] at hlength
    omega
  rw [of?, if_neg hne, hchars, Text.cutFirst_append hopen]
  simp only [List.cons_append]
  rw [← List.cons_append, Text.cutFirst_append hclose]
  simp only [hhead.trimmed, htrimmed]

theorem of?_closes : of? "\x7d".toList = some closes := rfl

end Line

theorem toList_iterate_indent (n : Nat) (line : String) :
    (indent^[n] line).toList = List.replicate (2 * n) ' ' ++ line.toList := by
  induction n generalizing line with
  | zero => rfl
  | succ n ih =>
    rw [Function.iterate_succ_apply', indent, String.toList_append, ih, Nat.mul_succ,
      Nat.add_comm, List.replicate_add]
    rfl

/-- A line is read at its level. -/
theorem readLine_indent {line : String} {kind : Line} {n : Nat}
    (hfirst : line.toList.head?.map isBlank = some false)
    (hkind : Line.of? line.toList = some kind) (hlevel : kind.level heads = n) :
    readLine heads (indent^[n] line) = kind.after? heads := by
  obtain ⟨c, hc, hblank⟩ := Option.map_eq_some_iff.mp hfirst
  obtain ⟨rest, hrest⟩ := List.head?_eq_some_iff.mp hc
  have hblanks : ∀ c ∈ List.replicate (2 * n) ' ', isBlank c = true := fun c hc => by
    rw [(List.mem_replicate.mp hc).2]
    rfl
  have hdrop : (indent^[n] line).toList.dropWhile isBlank = line.toList := by
    rw [toList_iterate_indent, List.dropWhile_append_of_pos hblanks, hrest,
      List.dropWhile_cons_of_neg (by simp [hblank])]
  have htake : (indent^[n] line).toList.takeWhile isBlank = List.replicate (2 * n) ' ' := by
    rw [toList_iterate_indent, List.takeWhile_append_of_pos hblanks, hrest,
      List.takeWhile_cons_of_neg (by simp [hblank]), List.append_nil]
  rw [readLine, hdrop, hkind, htake, List.length_replicate]
  exact if_pos (by rw [hlevel])

/-! ### Reading what was put together -/

namespace Reads

theorem nil (heads : List String) : Reads heads [] [] := rfl

theorem append (h : Reads heads lines said) (k : Reads heads more after) :
    Reads heads (lines ++ more) (said ++ after) := by
  unfold Reads at h k ⊢
  simp only [List.map_append, readLines_append, h, k, Option.bind_some, Option.map_some]

theorem of_line {kind : Line} {line : String}
    (hfirst : line.toList.head?.map isBlank = some false)
    (hkind : Line.of? line.toList = some kind) (hlevel : kind.level heads = heads.length)
    (hafter : kind.after? heads = some (heads, said)) : Reads heads [line] said := by
  have hread := (readLine_indent hfirst hkind hlevel).trans hafter
  simp [Reads, readLines, hread]

theorem states (h : IsPlain text) : Reads heads [text] [⟨heads, text⟩] :=
  of_line h.first (Line.of?_states h) rfl rfl

theorem wraps (hhead : IsPlain head) (htext : IsPlain text) :
    Reads heads [head ++ " \x7b " ++ text ++ " \x7d"] [⟨head :: heads, text⟩] := by
  refine of_line ?_ (Line.of?_wraps hhead htext) rfl rfl
  obtain ⟨c, hc, hblank⟩ := Option.map_eq_some_iff.mp hhead.first
  simp [hc, hblank]

/-- A block is read as what its body is read as, one block further in. -/
theorem braced (hhead : IsPlain head) (h : Reads (head :: heads) body said) :
    Reads heads (braced head body) said := by
  have hopen : readLine heads (indent^[heads.length] (head ++ " \x7b")) =
      some (head :: heads, []) := by
    refine readLine_indent ?_ (Line.of?_opens hhead) rfl
    obtain ⟨c, hc, hblank⟩ := Option.map_eq_some_iff.mp hhead.first
    simp [hc, hblank]
  have hclose : readLine (head :: heads) (indent^[heads.length] "\x7d") = some (heads, []) :=
    readLine_indent rfl Line.of?_closes rfl
  have hbody : (body.map indent).map (indent^[heads.length]) =
      body.map (indent^[(head :: heads).length]) := by
    rw [List.map_map, ← Function.iterate_succ]
    rfl
  unfold Reads at h ⊢
  rw [Descriptor.braced, List.cons_append, List.map_cons, List.map_append, hbody]
  simp only [readLines, hopen, readLines_append, h, hclose, List.map_cons, List.map_nil,
    Option.bind_some, Option.map_some, List.append_nil, List.nil_append]

end Reads

end

end SchemaClasses.Descriptor
