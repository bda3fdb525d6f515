import SchemaClasses.Json.Basic
import SchemaClasses.Json.Written

/-!
# Reading JSON

A text stands for a value when it is one written value, its 16-bit units pair up to characters, its
numbers are finite, and arrays and objects are nested at most 127 deep. A repeated key keeps its
first place and takes its last value.
-/

namespace SchemaClasses.Json

/-- Units that announce the second unit of a pair. -/
def isLeadUnit (code : Nat) : Bool := 0xD800 ≤ code && code < 0xDC00

/-- Units that end a pair. -/
def isTrailUnit (code : Nat) : Bool := 0xDC00 ≤ code && code < 0xE000

/-- The characters that glyphs stand for; `none` when a unit of a pair stands alone. -/
def Glyph.chars? : List Glyph → Option (List Char)
  | [] => some []
  | .char c :: rest => (chars? rest).map (c :: ·)
  | .unit lead :: rest =>
    if isLeadUnit lead then
      match rest with
      | .unit trail :: more =>
        if isTrailUnit trail then
          let code := 0x10000 + (lead - 0xD800) * 0x400 + (trail - 0xDC00)
          (chars? more).map (Char.ofNat code :: ·)
        else none
      | _ => none
    else if isTrailUnit lead then none
    else (chars? rest).map (Char.ofNat lead :: ·)

def Glyph.text? (glyphs : List Glyph) : Option String := (chars? glyphs).map String.ofList

mutual

/-- The value that a written value stands for, with arrays and objects at most `room` deep. -/
def Written.toJson? (room : Nat) : Written → Option Json
  | .null => some .null
  | .bool value => some (.bool value)
  | .num value => value.value?.map .num
  | .str glyphs => (Glyph.text? glyphs).map .str
  | .arr items =>
    match room with
    | 0 => none
    | room + 1 => (Written.items? room items).map .arr
  | .obj fields =>
    match room with
    | 0 => none
    | room + 1 => (Written.fields? room fields).map fun pairs => .obj (Ordered.ofPairs pairs)

def Written.items? (room : Nat) : List Written → Option (List Json)
  | [] => some []
  | item :: rest => do
    let value ← Written.toJson? room item
    let values ← Written.items? room rest
    return value :: values

def Written.fields? (room : Nat) : List (List Glyph × Written) → Option (List (String × Json))
  | [] => some []
  | (key, item) :: rest => do
    let name ← Glyph.text? key
    let value ← Written.toJson? room item
    let pairs ← Written.fields? room rest
    return (name, value) :: pairs

end

/-- How deep arrays and objects may be nested. -/
def maxDepth : Nat := 127

def read? (text : String) : Option Json := do
  (← Written.read? text).toJson? maxDepth

end SchemaClasses.Json
